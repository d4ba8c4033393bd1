import LinuxKernel.BitmapShift
import LinuxKernel.Proofs.Bitmap

/-!
# Shifts move every bit by the same distance

Both loops read a source word before they write over it, so it does not matter whether the source is
the destination. The last word is masked where it is read and written.
-/

namespace LinuxKernel.Lib

variable {L : LongSize}

lemma bitsToLongs_spec (L : LongSize) (bits : ℕ) :
    bits ≤ L.bits * bitsToLongs L bits ∧ L.bits * bitsToLongs L bits < bits + L.bits := by
  have hpos := L.bits_pos
  have h := Nat.div_add_mod (bits + L.bits - 1) L.bits
  have := Nat.mod_lt (bits + L.bits - 1) hpos
  unfold bitsToLongs
  omega

lemma lastWord_getLsbD (x : BitVec L.bits) {bits j r : ℕ} (hj : j < bitsToLongs L bits)
    (hr : r < L.bits) :
    (if bits % L.bits ≠ 0 ∧ j = bitsToLongs L bits - 1 then
        x &&& BitVec.ofNat L.bits (2 ^ (bits % L.bits) - 1) else x).getLsbD r =
      (x.getLsbD r && decide (L.bits * j + r < bits)) := by
  have hpos := L.bits_pos
  obtain ⟨hlo, hhi⟩ := bitsToLongs_spec L bits
  have hmod := Nat.div_add_mod bits L.bits
  have hmul := Nat.mul_le_mul_left L.bits (Nat.succ_le_of_lt hj)
  rw [Nat.mul_succ] at hmul
  split_ifs with hlast
  · obtain ⟨hleft, rfl⟩ := hlast
    have hdiv : bits / L.bits = bitsToLongs L bits - 1 := by
      refine Nat.div_eq_of_lt_le ?_ ?_
      · rw [mul_comm, Nat.mul_sub, mul_one]
        omega
      · rw [Nat.sub_add_cancel (by omega), mul_comm]
        refine lt_of_le_of_ne hlo fun heq => hleft ?_
        rw [heq, Nat.mul_mod_right]
    rw [BitVec.getLsbD_and, getLsbD_lowMask hr, ← hdiv]
    congr 1
    rw [decide_eq_decide]
    omega
  · have hin : L.bits * j + r < bits := by
      by_cases hleft : bits % L.bits = 0
      · have hdvd := Nat.div_mul_cancel (Nat.dvd_of_mod_eq_zero hleft)
        have hle : bitsToLongs L bits ≤ bits / L.bits := by
          refine Nat.le_of_lt_succ (Nat.lt_of_mul_lt_mul_left (a := L.bits) ?_)
          rw [Nat.mul_succ, mul_comm L.bits (bits / L.bits)]
          omega
        have := Nat.mul_le_mul_left L.bits hle
        rw [mul_comm L.bits (bits / L.bits)] at this
        omega
      · have hnext : j + 1 + 1 ≤ bitsToLongs L bits := by
          have := not_and.mp hlast hleft
          omega
        have := Nat.mul_le_mul_left L.bits hnext
        rw [Nat.mul_succ, Nat.mul_succ] at this
        omega
    rw [decide_eq_true hin, Bool.and_true]

/-- How the loops read the source: it is the destination, or a bitmap apart from it. -/
def ReadsSource (view : Bitmap L → Bitmap L) (dst src : Bitmap L) : Prop :=
  (view = id ∧ dst = src) ∨ view = fun _ => src

variable {view : Bitmap L → Bitmap L}

section

variable {src : Bitmap L}

lemma shiftRightWord_congr {src' : Bitmap L} {lim left off rem k : ℕ}
    (h : ∀ i, k ≤ i → src' i = src i) :
    shiftRightWord src' lim left off rem k = shiftRightWord src lim left off rem k := by
  unfold shiftRightWord
  rw [h (off + k) (by omega), h (off + k + 1) (by omega)]

variable (view src) in
lemma shiftRightLoop_word (lim left off rem : ℕ)
    (hkeep : ∀ (d : Bitmap L) (k : ℕ) (w : BitVec L.bits), (∀ i, k ≤ i → view d i = src i) →
      ∀ i, k + 1 ≤ i → view (Function.update d k w) i = src i) :
    ∀ (n k : ℕ) (dst : Bitmap L), (∀ i, k ≤ i → view dst i = src i) → ∀ j,
      shiftRightLoop view lim left off rem n k dst j
        = if k ≤ j ∧ j < k + n then shiftRightWord src lim left off rem j else dst j
  | 0, k, dst, _, j => by rw [shiftRightLoop, if_neg (by omega)]
  | n + 1, k, dst, hd, j => by
    rw [shiftRightLoop, shiftRightWord_congr hd,
      shiftRightLoop_word lim left off rem hkeep n (k + 1) _ (hkeep dst k _ hd)]
    rcases lt_trichotomy j k with hj | rfl | hj
    · rw [if_neg (by omega), if_neg (by omega), Function.update_of_ne (by omega)]
    · rw [if_neg (by omega), if_pos (by omega), Function.update_self]
    · rw [Function.update_of_ne (by omega)]
      by_cases hn : j < k + (n + 1)
      · rw [if_pos (by omega), if_pos (by omega)]
      · rw [if_neg (by omega), if_neg (by omega)]

lemma shiftRightWord_getLsbD (src : Bitmap L) {bits off rem k r : ℕ} (hr : r < L.bits)
    (hrem : rem < L.bits) (hk : off + k < bitsToLongs L bits) :
    (shiftRightWord src (bitsToLongs L bits) (bits % L.bits) off rem k).getLsbD r =
      (decide (L.bits * (off + k) + rem + r < bits)
        && src.test (L.bits * (off + k) + rem + r)) := by
  obtain ⟨hlo, hhi⟩ := bitsToLongs_spec L bits
  unfold shiftRightWord
  simp only []
  rw [lastWord_getLsbD _ (by omega) hr, BitVec.getLsbD_or, BitVec.getLsbD_shiftLeft,
    BitVec.getLsbD_ushiftRight]
  have hout : L.bits * (off + k) + rem + r < bits → L.bits * k + r < bits := by
    rw [mul_add]
    omega
  by_cases hsplit : rem + r < L.bits
  · rw [lastWord_getLsbD _ hk hsplit, show L.bits * (off + k) + rem + r =
      L.bits * (off + k) + (rem + r) by omega, Bitmap.test_mul_add _ _ hsplit]
    rw [add_assoc] at hout
    by_cases hin : L.bits * (off + k) + (rem + r) < bits
    · simp [hin, hout hin, show r < L.bits - rem by omega]
    · simp [hin, show r < L.bits - rem by omega]
  rw [BitVec.getLsbD_of_ge _ _ (by omega : L.bits ≤ rem + r), Bool.or_false]
  have hidx : L.bits * (off + k) + rem + r = L.bits * (off + k + 1) + (r - (L.bits - rem)) := by
    rw [Nat.mul_succ]
    omega
  by_cases hlast : bitsToLongs L bits ≤ off + k + 1
  · have hmul := Nat.mul_le_mul_left L.bits hlast
    rw [if_pos (.inr hlast), hidx, decide_eq_false (show
      ¬ L.bits * (off + k + 1) + (r - (L.bits - rem)) < bits by omega)]
    simp
  · rw [if_neg (by omega), lastWord_getLsbD _ (by omega) (by omega), hidx,
      Bitmap.test_mul_add _ _ (by omega)]
    rw [hidx] at hout
    by_cases hin : L.bits * (off + k + 1) + (r - (L.bits - rem)) < bits
    · simp [hin, hout hin, hr, show ¬ r < L.bits - rem by omega]
    · simp [hin]

lemma bitmapShiftRight_bit {dst : Bitmap L} (hview : ReadsSource view dst src) {shift bits i : ℕ}
    (hs : shift ≤ bits) (hi : i < L.bits * bitsToLongs L bits) :
    (bitmapShiftRight view dst shift bits).test i =
      (decide (i + shift < bits) && src.test (i + shift)) := by
  have hpos := L.bits_pos
  obtain ⟨hlo, hhi⟩ := bitsToLongs_spec L bits
  have hd := Nat.div_add_mod shift L.bits
  have hrem := Nat.mod_lt shift hpos
  have hloop := shiftRightLoop_word view src (bitsToLongs L bits)
    (bits % L.bits) (shift / L.bits) (shift % L.bits) (fun d k w h j hj => by
      rcases hview with ⟨rfl, -⟩ | rfl
      · have hne : j ≠ k := by omega
        show Function.update d k w j = src j
        rw [Function.update_of_ne hne]
        exact h j (by omega)
      · rfl) (bitsToLongs L bits - shift / L.bits) 0 dst (fun j _ => by
      rcases hview with ⟨rfl, rfl⟩ | rfl
      · rfl
      · rfl)
  obtain ⟨q, r, hr, rfl⟩ : ∃ q r, r < L.bits ∧ i = L.bits * q + r :=
    ⟨i / L.bits, i % L.bits, Nat.mod_lt _ hpos, (Nat.div_add_mod _ _).symm⟩
  have hq : q < bitsToLongs L bits := by
    refine Nat.lt_of_mul_lt_mul_left (a := L.bits) ?_
    omega
  rw [Bitmap.test_mul_add _ _ hr]
  unfold bitmapShiftRight
  simp only [hloop]
  have hsum : L.bits * q + r + shift = L.bits * (shift / L.bits + q) + shift % L.bits + r := by
    rw [mul_add]
    omega
  have hoff : shift / L.bits ≤ bitsToLongs L bits := by
    refine Nat.le_of_mul_le_mul_left ?_ hpos
    omega
  by_cases hin : bitsToLongs L bits - shift / L.bits ≤ q
  · have hmul := Nat.mul_le_mul_left L.bits (show bitsToLongs L bits ≤ shift / L.bits + q by omega)
    rw [if_pos ⟨hin, by omega⟩, hsum, decide_eq_false (by omega), Bool.false_and]
    exact BitVec.getLsbD_zero
  · rw [if_neg (by omega), if_pos (by omega), hsum, shiftRightWord_getLsbD src hr hrem (by omega)]

end

section

variable {dst src : Bitmap L}

lemma bitmapShiftLeft_word (hview : ReadsSource view dst src) {shift bits q : ℕ}
    (hq : q < bitsToLongs L bits) :
    bitmapShiftLeft view dst shift bits q =
      if q < shift / L.bits then 0 else shiftLeftWord src (bitsToLongs L bits) (bits % L.bits)
        (shift / L.bits) (shift % L.bits) (q - shift / L.bits) := by
  unfold bitmapShiftLeft
  by_cases hoff : q < shift / L.bits
  · rw [if_pos hoff, if_pos hoff]
  rw [if_neg hoff, if_neg hoff]
  rw [shiftLeftLoop_word view src _ _ _ _ (fun d k w h => ?_) _ _ fun i _ => ?_,
    if_pos (by omega)]
  · rcases hview with ⟨rfl, rfl⟩ | rfl
    · exact update_below d w h
    · exact fun _ _ => rfl
  · rcases hview with ⟨rfl, rfl⟩ | rfl
    · rfl
    · rfl

lemma bitmapShiftLeft_bit (hview : ReadsSource view dst src) (shift : ℕ) {bits i : ℕ}
    (hi : i < bits) :
    (bitmapShiftLeft view dst shift bits).test i =
      (decide (shift ≤ i) && src.test (i - shift)) := by
  have hq : i / L.bits < bitsToLongs L bits := by
    refine (Nat.div_lt_iff_lt_mul L.bits_pos).mpr ?_
    rw [mul_comm]
    exact lt_of_lt_of_le hi (bitsToLongs_spec L bits).1
  rw [← bitmapShiftLeft_test src shift hi, Bitmap.test, Bitmap.test, bitmapShiftLeft_word hview hq,
    bitmapShiftLeft_word (.inl ⟨rfl, rfl⟩) hq]

lemma bitmapShiftLeft_unused (hview : ReadsSource view dst src) (shift : ℕ) {bits i : ℕ}
    (hb : bits ≤ i) (hi : i < L.bits * bitsToLongs L bits) :
    (bitmapShiftLeft view dst shift bits).test i = false := by
  obtain ⟨q, r, hr, rfl⟩ : ∃ q r, r < L.bits ∧ i = L.bits * q + r :=
    ⟨i / L.bits, i % L.bits, Nat.mod_lt _ L.bits_pos, (Nat.div_add_mod _ _).symm⟩
  have hq : q < bitsToLongs L bits := by
    refine Nat.lt_of_mul_lt_mul_left (a := L.bits) ?_
    omega
  rw [Bitmap.test_mul_add _ _ hr, bitmapShiftLeft_word hview hq]
  split_ifs with hoff
  · exact BitVec.getLsbD_zero
  · unfold shiftLeftWord
    simp only []
    rw [Nat.sub_add_cancel (by omega), lastWord_getLsbD _ hq hr, decide_eq_false (by omega),
      Bool.and_false]

/-- `__bitmap_shift_right` and `__bitmap_shift_left`, also in place: bits come from `shift` places
up or down, zeros come in, and nothing is left past the end in the last word. -/
theorem bitmapShift_bits (hview : ReadsSource view dst src) {shift bits : ℕ} (hs : shift ≤ bits) :
    (∀ i < bits, (bitmapShiftRight view dst shift bits).test i =
      (decide (i + shift < bits) && src.test (i + shift))) ∧
    (∀ i < bits, (bitmapShiftLeft view dst shift bits).test i =
      (decide (shift ≤ i) && src.test (i - shift))) ∧
    ∀ i, bits ≤ i → i < L.bits * bitsToLongs L bits →
      (bitmapShiftRight view dst shift bits).test i = false ∧
        (bitmapShiftLeft view dst shift bits).test i = false := by
  refine ⟨fun i hi => ?_, fun i hi => bitmapShiftLeft_bit hview shift hi, fun i hb hi => ⟨?_, ?_⟩⟩
  · exact bitmapShiftRight_bit hview hs (lt_of_lt_of_le hi (bitsToLongs_spec L bits).1)
  · rw [bitmapShiftRight_bit hview hs hi, decide_eq_false (by omega), Bool.false_and]
  · exact bitmapShiftLeft_unused hview shift hb hi

theorem bitmapShift_bits_forty :
    (bitmapShiftRight id (fun _ => (-1 : BitVec LongSize.long32.bits)) 3 40).test 37 = false ∧
      (bitmapShiftLeft id (fun _ => (-1 : BitVec LongSize.long32.bits)) 3 40).test 40 = false := by
  have hview : ReadsSource id (fun _ => (-1 : BitVec LongSize.long32.bits)) fun _ => -1 :=
    Or.inl ⟨rfl, rfl⟩
  have h := bitmapShift_bits hview (show 3 ≤ 40 by omega)
  exact ⟨(h.1 37 (by omega)).trans (by decide), (h.2.2 40 le_rfl (by decide)).2⟩

end

end LinuxKernel.Lib
