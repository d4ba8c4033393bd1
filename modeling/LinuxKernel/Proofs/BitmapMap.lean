import LinuxKernel.BitmapMap
import LinuxKernel.Proofs.BitmapList

/-!
# Maps between set bits go by ordinals

`for_each_set_bit` runs through the set bits in ascending order, so the counter of `bitmap_onto` is
the ordinal of the bit it is at. `bitmap_pos_to_ord` and `bitmap_ord_to_pos` are the two directions
between set bits and ordinals, and inverse to each other.
-/

namespace LinuxKernel.Lib

variable {L : LongSize} {bits : ℕ}

lemma weightWords_eq (bitmap : Bitmap L) :
    ∀ k, weightWords bitmap k = bitRank bitmap.test (L.bits * k)
  | 0 => by rw [weightWords, mul_zero, bitRank_zero]
  | k + 1 => by
    rw [weightWords, weightWords_eq bitmap k, Nat.mul_succ, bitRank_add, hweightLong]
    congr 1
    exact bitRank_congr fun i hi => (bitmap.test_mul_add k hi).symm

lemma bitmapWeight_eq (bitmap : Bitmap L) (bits : ℕ) :
    bitmapWeight bitmap bits = bitRank bitmap.test bits := by
  have hdm := Nat.div_add_mod bits L.bits
  have hlt := Nat.mod_lt bits L.bits_pos
  have hsplit : bitRank bitmap.test bits = bitRank bitmap.test (L.bits * (bits / L.bits)) +
      bitRank (fun i => bitmap.test (L.bits * (bits / L.bits) + i)) (bits % L.bits) := by
    rw [← bitRank_add, hdm]
  rw [bitmapWeight, hsplit, weightWords_eq]
  split_ifs with hleft
  · congr 1
    rw [hweightLong]
    set x := bitmap (bits / L.bits) &&& BitVec.ofNat L.bits (2 ^ (bits % L.bits) - 1) with hx
    have hbit : ∀ i < L.bits, x.getLsbD i =
        ((bitmap (bits / L.bits)).getLsbD i && decide (i < bits % L.bits)) := fun i hi => by
      rw [hx, BitVec.getLsbD_and, getLsbD_lowMask hi]
    have hclear : ∀ i, bits % L.bits ≤ i → i < L.bits → x.getLsbD i = false := fun i h1 h2 => by
      rw [hbit i h2, decide_eq_false (by omega), Bool.and_false]
    rw [bitRank_clear hlt.le hclear]
    refine bitRank_congr fun i hi => ?_
    rw [hbit i (by omega), decide_eq_true hi, Bool.and_true, bitmap.test_mul_add _ (by omega)]
  · rw [not_not.mp hleft, bitRank_zero, add_zero]

section

variable {σ : Type*} (addr : Bitmap L)

lemma setFrom_nextBit {bit : ℕ → Bool} {lo size r : ℕ} (h : NextBit bit lo size r)
    (hlo : lo ≤ r) : setFrom bit (size - lo) lo = setFrom bit (size - r) r := by
  have hle := h.le
  obtain ⟨j, rfl⟩ := Nat.exists_eq_add_of_le hlo
  rw [show size - lo = j + (size - (lo + j)) by omega]
  exact setFrom_clear j fun n h1 h2 => h.miss n h1 h2

lemma forEachSetBit_eq {size : ℕ} {f : ℕ → σ → Option σ} {g : σ → ℕ → σ}
    (hf : ∀ i < size, addr.test i = true → ∀ s, f i s = some (g s i)) (s : σ) :
    forEachSetBit addr size f s = some ((setFrom addr.test size 0).foldl g s) := by
  have hfirst := findFirstBit_spec addr size
  -- what is left to do, from the bit the loop is at, gives the result
  let Inv : ℕ × σ → Prop := fun t => t.1 ≤ size ∧ (t.1 < size → addr.test t.1 = true) ∧
    (setFrom addr.test (size - t.1) t.1).foldl g t.2 = (setFrom addr.test size 0).foldl g s
  have hstep : ∀ t, Inv t → (setBitPass addr size f t).Next Inv
      (fun r => r = some ((setFrom addr.test size 0).foldl g s)) (fun t => size - t.1)
      (size - t.1) := by
    rintro ⟨i, s'⟩ ⟨hle, hset, hfold⟩
    simp only at hle hset hfold
    rw [setBitPass]
    by_cases hi : i < size
    · have hnext := findNextBit_spec addr size (i + 1)
      have hcons : setFrom addr.test (size - i) i =
          i :: setFrom addr.test (size - (i + 1)) (i + 1) := by
        rw [show size - i = size - (i + 1) + 1 by omega, setFrom, if_pos (hset hi)]
      rw [hcons, List.foldl_cons, setFrom_nextBit hnext (hnext.from_le hi)] at hfold
      have hge := hnext.from_le hi
      simp only [if_pos hi, hf i hi (hset hi)]
      exact ⟨⟨hnext.le, fun h => (hnext.hit h).2, hfold⟩,
        show size - findNextBit addr size (i + 1) < size - i by omega⟩
    · simp only [if_neg hi]
      rw [show size - i = 0 by omega, setFrom, List.foldl_nil] at hfold
      exact congrArg some hfold
  have hstart : Inv (findFirstBit addr size, s) := by
    refine ⟨hfirst.le, fun h => (hfirst.hit h).2, ?_⟩
    rw [← setFrom_nextBit hfirst (Nat.zero_le _), Nat.sub_zero]
  obtain ⟨r, hr, rfl⟩ := Pass.run_of_next hstep (size + 1) hstart (by simp only; omega)
  rw [forEachSetBit, hr, Option.join_some]

lemma foldl_set_test (pos : ℕ → ℕ) (x : ℕ) : ∀ (l : List ℕ) (d : Bitmap L),
    (l.foldl (fun d i => d.set (pos i)) d).test x = true ↔ d.test x = true ∨ ∃ i ∈ l, x = pos i
  | [], d => by simp
  | i :: l, d => by
    rw [List.foldl_cons, foldl_set_test pos x l, Bitmap.set_test, Bool.or_eq_true,
      decide_eq_true_eq]
    simp only [List.mem_cons, exists_eq_or_imp]
    tauto

lemma forEachSetBit_set {size : ℕ} {f : ℕ → Bitmap L → Option (Bitmap L)} {pos : ℕ → ℕ}
    (hf : ∀ i < size, addr.test i = true → ∀ d, f i d = some (d.set (pos i))) (dst : Bitmap L) :
    ∃ b, forEachSetBit addr size f (bitmapZero dst size) = some b ∧ ∀ x < size,
      (b.test x = true ↔ ∃ i < size, addr.test i = true ∧ x = pos i) := by
  refine ⟨_, forEachSetBit_eq addr hf _, fun x hx => ?_⟩
  rw [foldl_set_test, bitmapZero_test dst hx]
  simp only [Bool.false_eq_true, false_or, mem_setFrom, Nat.zero_le, zero_add, true_and,
    and_assoc]

end

section

variable (buf : Bitmap L) {bit : ℕ → Bool} {bits lo n r size : ℕ}

lemma bitRank_nextBit (h : NextBit bit lo size r)
    (hlo : lo ≤ r) : bitRank bit r = bitRank bit lo :=
  bitRank_clear hlo h.miss

lemma NextBit.le_of_set (h : NextBit bit lo size r)
    (hlo : lo ≤ n) (hn : bit n = true) : r ≤ n := by
  by_contra hlt
  have hclear := h.miss n hlo (by omega)
  rw [hn] at hclear
  exact Bool.noConfusion hclear

lemma bitmapPosToOrd_eq {pos : ℕ} :
    bitmapPosToOrd buf pos bits =
      some (if pos < bits ∧ buf.test pos = true then (bitRank buf.test pos : ℤ) else -1) := by
  rw [bitmapPosToOrd]
  by_cases hpos : pos < bits ∧ buf.test pos = true
  · rw [if_neg (by simp [hpos.1, hpos.2]), if_pos hpos]
    obtain ⟨hlt, hset⟩ := hpos
    have hfirst := findFirstBit_spec buf bits
    let Inv : ℕ × ℕ → Prop := fun t => t.1 ≤ pos ∧ buf.test t.1 = true ∧ t.2 = bitRank buf.test t.1
    have hstep : ∀ t, Inv t → (posToOrdPass buf pos bits t).Next Inv
        (fun r => r = some (bitRank buf.test pos)) (fun t => pos - t.1) (pos - t.1) := by
      rintro ⟨i, ord⟩ ⟨hle, hi, hord⟩
      simp only at hle hi hord
      subst hord
      rw [posToOrdPass]
      simp only
      by_cases hip : i < pos
      · have hnext := findNextBit_spec buf bits (i + 1)
        have hle' := hnext.le_of_set hip hset
        have hge := hnext.from_le (show i + 1 ≤ bits by omega)
        rw [if_pos hip]
        refine ⟨⟨hle', (hnext.hit (by omega)).2, ?_⟩,
          show pos - findNextBit buf bits (i + 1) < pos - i by omega⟩
        rw [bitRank_nextBit hnext hge, bitRank_succ_of_set hi]
      · obtain rfl : i = pos := by omega
        rw [if_neg hip, if_neg (not_not.mpr rfl)]
        rfl
    have hstart : Inv (findFirstBit buf bits, 0) := by
      have hle := hfirst.le_of_set (Nat.zero_le pos) hset
      refine ⟨hle, (hfirst.hit (by omega)).2, ?_⟩
      rw [bitRank_nextBit hfirst (Nat.zero_le _), bitRank_zero]
    obtain ⟨r, hr, rfl⟩ := Pass.run_of_next hstep (pos + 1) hstart (by simp only; omega)
    rw [hr, Option.join_some, Option.map_some]
  · rw [if_neg hpos, if_pos]
    by_contra hcon
    push Not at hcon
    exact hpos hcon

lemma bitmapOrdToPos_eq {ord : ℕ} (h : IsOrd buf.test bits ord n) :
    bitmapOrdToPos buf ord bits = some n := by
  obtain ⟨hlt, hset, hrank⟩ := h
  have hord : ord < bits := by
    have hle : bitRank buf.test n ≤ n := bitRank_le n
    omega
  have hfirst := findFirstBit_spec buf bits
  let Inv : ℕ × ℕ → Prop := fun t =>
    t.1 ≤ n ∧ buf.test t.1 = true ∧ bitRank buf.test t.1 + t.2 = ord
  have hstep : ∀ t, Inv t → (ordToPosPass buf bits t).Next Inv (fun r => r = n) (fun t => t.2)
      t.2 := by
    rintro ⟨i, o⟩ ⟨hle, hi, hsum⟩
    simp only at hle hi hsum
    rw [ordToPosPass]
    simp only
    by_cases ho : 0 < o
    · have hin : i < n := by
        refine lt_of_le_of_ne hle fun heq => ?_
        rw [heq] at hsum
        omega
      have hnext := findNextBit_spec buf bits (i + 1)
      have hle' := hnext.le_of_set hin hset
      have hge := hnext.from_le (show i + 1 ≤ bits by omega)
      rw [if_pos ⟨by omega, ho⟩]
      refine ⟨⟨hle', (hnext.hit (by omega)).2, ?_⟩, show o - 1 < o by omega⟩
      rw [bitRank_nextBit hnext hge, bitRank_succ_of_set hi]
      omega
    · have hin : i = n := bitRank_inj hi hset (by omega)
      rw [if_neg fun h => ho h.2, if_pos ⟨by omega, by omega⟩]
      exact hin
  have hstart : Inv (findFirstBit buf bits, ord) := by
    have hle := hfirst.le_of_set (Nat.zero_le n) hset
    refine ⟨hle, (hfirst.hit (by omega)).2, ?_⟩
    rw [bitRank_nextBit hfirst (Nat.zero_le _), bitRank_zero, zero_add]
  obtain ⟨r, hr, rfl⟩ := Pass.run_of_next hstep (ord + 1) hstart (by simp only; omega)
  rw [bitmapOrdToPos, if_pos hord, hr]

end

/-- Where `bitmap_remap` maps a set bit of its source. -/
def RemapsTo (old new : Bitmap L) (bits y x : ℕ) : Prop :=
  if old.test y = true ∧ bitmapWeight new bits ≠ 0 then
    IsOrd new.test bits (bitRank old.test y % bitmapWeight new bits) x
  else x = y

lemma remapBit_eq (old new : Bitmap L) {y : ℕ} (hy : y < bits) :
    ∃ x, (∀ x', RemapsTo old new bits y x' ↔ x' = x) ∧
      ∀ d, remapBit old new (bitmapWeight new bits) bits y d = some (d.set x) := by
  by_cases h : old.test y = true ∧ bitmapWeight new bits ≠ 0
  · have hlt := Nat.mod_lt (bitRank old.test y) (Nat.pos_of_ne_zero h.2)
    rw [bitmapWeight_eq] at hlt
    obtain ⟨x, hx⟩ := exists_isOrd hlt
    refine ⟨x, fun x' => ?_, fun d => ?_⟩
    · rw [RemapsTo, if_pos h, bitmapWeight_eq]
      exact ⟨fun hx' => hx'.unique hx, fun heq => heq ▸ hx⟩
    rw [remapBit, bitmapPosToOrd_eq, if_pos ⟨hy, h.1⟩]
    simp only
    have hcond : ¬ ((bitRank old.test y : ℤ) < 0 ∨ bitmapWeight new bits = 0) := by
      rintro (hneg | h0)
      · omega
      · exact h.2 h0
    rw [if_neg hcond, Int.toNat_natCast, bitmapWeight_eq, bitmapOrdToPos_eq new hx,
      Option.map_some]
  · refine ⟨y, fun x' => ?_, fun d => ?_⟩
    · rw [RemapsTo, if_neg h]
    · rw [remapBit, bitmapPosToOrd_eq]
      simp only
      rw [if_pos]
      by_cases hold : old.test y = true
      · exact .inr (not_not.mp (not_and.mp h hold))
      · rw [if_neg fun hc => hold hc.2]
        exact .inl (by omega)

lemma bitmapRemap_spec (dst src old new : Bitmap L) (bits : ℕ) :
    ∃ b, bitmapRemap false dst src old new bits = some b ∧ ∀ x < bits, (b.test x = true ↔
      ∃ y < bits, src.test y = true ∧ RemapsTo old new bits y x) := by
  have hpos : ∀ y, ∃ x, y < bits → (∀ x', RemapsTo old new bits y x' ↔ x' = x) ∧
      ∀ d, remapBit old new (bitmapWeight new bits) bits y d = some (d.set x) := by
    intro y
    by_cases hy : y < bits
    · obtain ⟨x, hx⟩ := remapBit_eq old new hy
      exact ⟨x, fun _ => hx⟩
    · exact ⟨0, fun h => absurd h hy⟩
  choose pos hpos using hpos
  obtain ⟨b, hb, htest⟩ := forEachSetBit_set src (fun y hy _ => (hpos y hy).2) dst
  refine ⟨b, hb, fun x hx => (htest x hx).trans ?_⟩
  refine exists_congr fun y => and_congr_right fun hy => and_congr_right fun _ => ?_
  rw [(hpos y hy).1]

lemma foldl_onto_test (orig : Bitmap L) (bit : ℕ → Bool) (x : ℕ) : ∀ (k i : ℕ) (d : Bitmap L),
    ((setFrom bit k i).foldl (fun s n => ontoBit orig n s) (bitRank bit i, d)).2.test x = true ↔
      d.test x = true ∨ (i ≤ x ∧ x < i + k) ∧ bit x = true ∧ orig.test (bitRank bit x) = true
  | 0, i, d => by
    rw [setFrom, List.foldl_nil]
    simp only [add_zero]
    constructor
    · exact .inl
    · rintro (h | ⟨h, -⟩)
      · exact h
      · omega
  | k + 1, i, d => by
    rw [setFrom]
    by_cases hi : bit i = true
    · rw [if_pos hi, List.foldl_cons, ontoBit, ← bitRank_succ_of_set hi,
        foldl_onto_test orig bit x k (i + 1)]
      have hd : (if orig.test (bitRank bit i) = true then d.set i else d).test x = true ↔
          d.test x = true ∨ x = i ∧ orig.test (bitRank bit i) = true := by
        split_ifs with ho
        · rw [Bitmap.set_test, Bool.or_eq_true, decide_eq_true_eq]
          tauto
        · tauto
      rw [hd]
      by_cases hx : x = i
      · subst hx
        simp only [true_and, hi, le_refl, show ¬ x + 1 ≤ x by omega, false_and, or_false,
          show x < x + (k + 1) by omega]
      · rw [show (i + 1 ≤ x ∧ x < i + 1 + k) ↔ (i ≤ x ∧ x < i + (k + 1)) by omega]
        simp only [hx, false_and, or_false]
    · rw [if_neg hi, ← bitRank_succ_of_clear hi, foldl_onto_test orig bit x k (i + 1)]
      by_cases hx : x = i
      · subst hx
        have hclear : bit x = false := Bool.eq_false_iff.mpr hi
        simp only [hclear, Bool.false_eq_true, false_and, and_false]
      · rw [show (i + 1 ≤ x ∧ x < i + 1 + k) ↔ (i ≤ x ∧ x < i + (k + 1)) by omega]

lemma bitmapOnto_spec (dst orig relmap : Bitmap L) (bits : ℕ) :
    ∃ b, bitmapOnto false dst orig relmap bits = some b ∧ ∀ n < bits, (b.test n = true ↔
      ∃ m, IsOrd relmap.test bits m n ∧ orig.test m = true) := by
  have hloop : forEachSetBit relmap bits (fun n s => some (ontoBit orig n s))
      (0, bitmapZero dst bits) = some ((setFrom relmap.test bits 0).foldl
        (fun s n => ontoBit orig n s) (0, bitmapZero dst bits)) :=
    forEachSetBit_eq relmap (fun _ _ _ _ => rfl) _
  refine ⟨((setFrom relmap.test bits 0).foldl (fun s n => ontoBit orig n s)
    (0, bitmapZero dst bits)).2, ?_, fun n hn => ?_⟩
  · rw [bitmapOnto, if_neg Bool.false_ne_true, hloop, Option.map_some]
  have hfold := foldl_onto_test orig relmap.test n bits 0 (bitmapZero dst bits)
  rw [bitRank_zero, bitmapZero_test dst hn] at hfold
  rw [hfold]
  simp only [Bool.false_eq_true, false_or, Nat.zero_le, zero_add, hn, true_and]
  exact ⟨fun ⟨h1, h2⟩ => ⟨_, ⟨hn, h1, rfl⟩, h2⟩, fun ⟨m, hm, h2⟩ => ⟨hm.set, hm.bitRank_eq ▸ h2⟩⟩

lemma bitmapFold_spec (dst orig : Bitmap L) (sz bits : ℕ) :
    ∃ b, bitmapFold false dst orig sz bits = some b ∧ ∀ x < bits, (b.test x = true ↔
      ∃ y < bits, orig.test y = true ∧ x = y % sz) :=
  forEachSetBit_set orig (fun _ _ _ _ => rfl) dst

lemma remap_back {old new : Bitmap L} (hw : bitmapWeight old bits = bitmapWeight new bits)
    {src there back : Bitmap L} (hsub : ∀ y < bits, src.test y = true → old.test y = true)
    (hthere : ∀ x < bits, (there.test x = true ↔
      ∃ y < bits, src.test y = true ∧ RemapsTo old new bits y x))
    (hback : ∀ z < bits, (back.test z = true ↔
      ∃ x < bits, there.test x = true ∧ RemapsTo new old bits x z)) {z : ℕ} (hz : z < bits) :
    back.test z = src.test z := by
  have hto : ∀ {a b : Bitmap L} {y x : ℕ}, bitmapWeight a bits = bitmapWeight b bits → y < bits →
      a.test y = true → (RemapsTo a b bits y x ↔ IsOrd b.test bits (bitRank a.test y) x) := by
    intro a b y x hab hy ha
    have hlt := bitRank_lt ha hy
    rw [← bitmapWeight_eq a bits, hab] at hlt
    rw [RemapsTo, if_pos ⟨ha, by omega⟩, Nat.mod_eq_of_lt hlt]
  rw [Bool.eq_iff_iff, hback z hz]
  constructor
  · rintro ⟨x, hx, hx', hxz⟩
    obtain ⟨y, hy, hsrc, hyx⟩ := (hthere x hx).mp hx'
    have hord := (hto hw hy (hsub y hy hsrc)).mp hyx
    obtain ⟨-, hzset, hzrank⟩ := (hto hw.symm hx hord.set).mp hxz
    rw [hord.bitRank_eq] at hzrank
    rwa [bitRank_inj hzset (hsub y hy hsrc) hzrank]
  · intro hsrc
    have hold := hsub z hz hsrc
    have hlt := bitRank_lt hold hz
    rw [← bitmapWeight_eq old bits, hw, bitmapWeight_eq] at hlt
    obtain ⟨x, hx⟩ := exists_isOrd hlt
    refine ⟨x, hx.lt, (hthere x hx.lt).mpr ⟨z, hz, hsrc, (hto hw hz hold).mpr hx⟩, ?_⟩
    exact (hto hw.symm hx.lt hx.set).mpr ⟨hz, hold, hx.bitRank_eq.symm⟩

/-- What `bitmap_onto` and `bitmap_remap` set; remapping there and back between bitmaps of one
weight is the identity, and a bitmap folded to the weight of another is not lost when mapped onto
it. -/
theorem bitmap_maps (bits : ℕ) (dst dst' : Bitmap L) :
    (∀ orig relmap, ∃ b, bitmapOnto false dst orig relmap bits = some b ∧ ∀ n < bits,
      (b.test n = true ↔ ∃ m, IsOrd relmap.test bits m n ∧ orig.test m = true)) ∧
    (∀ src old new, ∃ b, bitmapRemap false dst src old new bits = some b ∧ ∀ x < bits,
      (b.test x = true ↔ ∃ y < bits, src.test y = true ∧ RemapsTo old new bits y x)) ∧
    (∀ src old new, bitmapWeight old bits = bitmapWeight new bits →
      (∀ y < bits, src.test y = true → old.test y = true) →
      ∃ there back, bitmapRemap false dst src old new bits = some there ∧
        bitmapRemap false dst' there new old bits = some back ∧
        ∀ x < bits, back.test x = src.test x) ∧
    ∀ orig relmap, (∃ n < bits, orig.test n = true) → (∃ n < bits, relmap.test n = true) →
      ∃ tmp b, bitmapFold false dst orig (bitmapWeight relmap bits) bits = some tmp ∧
        bitmapOnto false dst' tmp relmap bits = some b ∧ ∃ n < bits, b.test n = true := by
  refine ⟨fun orig relmap => bitmapOnto_spec dst orig relmap bits,
    fun src old new => bitmapRemap_spec dst src old new bits, fun src old new hw hsub => ?_,
    fun orig relmap horig hrel => ?_⟩
  · obtain ⟨there, h1, hthere⟩ := bitmapRemap_spec dst src old new bits
    obtain ⟨back, h2, hback⟩ := bitmapRemap_spec dst' there new old bits
    exact ⟨there, back, h1, h2, fun x hx => remap_back hw hsub hthere hback hx⟩
  obtain ⟨y, hy, hset⟩ := horig
  obtain ⟨r, hr, hrset⟩ := hrel
  obtain ⟨tmp, h1, htmp⟩ := bitmapFold_spec dst orig (bitmapWeight relmap bits) bits
  obtain ⟨b, h2, hb⟩ := bitmapOnto_spec dst' tmp relmap bits
  have hpos : 0 < bitmapWeight relmap bits := by
    rw [bitmapWeight_eq]
    exact Nat.zero_lt_of_lt (bitRank_lt hrset hr)
  have hlt := Nat.mod_lt y hpos
  have hmod := Nat.mod_le y (bitmapWeight relmap bits)
  obtain ⟨n, hn⟩ := exists_isOrd (lt_of_lt_of_eq hlt (bitmapWeight_eq relmap bits))
  exact ⟨tmp, b, h1, h2, n, hn.lt,
    (hb n hn.lt).mpr ⟨_, hn, (htmp _ (by omega)).mpr ⟨y, hy, hset, rfl⟩⟩⟩

theorem bitmap_maps_nibbles :
    let src : Bitmap .long64 := fun _ => 0x05
    ∃ there back,
      bitmapRemap false (fun _ => 0) src (fun _ => 0x0f) (fun _ => 0xf0) 8 = some there ∧
      bitmapRemap false (fun _ => 0) there (fun _ => 0xf0) (fun _ => 0x0f) 8 = some back ∧
      ∀ x < 8, back.test x = src.test x :=
  (bitmap_maps 8 _ _).2.2.1 _ _ _ (by decide +kernel) (by decide +kernel)

end LinuxKernel.Lib
