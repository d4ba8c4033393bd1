import LinuxKernel.Bitmap

/-!
# A printed bitmap parses back

The shift moves every bit up and feeds zeros in, so a parse that has read the chunks down to chunk
`k` holds the bits from `32 * k` on, moved down.
-/

namespace LinuxKernel.Lib

open List

variable {L : LongSize} {src : Bitmap L} {k left lim off r rem : ℕ}

lemma Bitmap.test_mul_add (b : Bitmap L) (k : ℕ) {x : ℕ} (hx : x < L.bits) :
    b.test (L.bits * k + x) = (b k).getLsbD x := by
  have hpos := L.bits_pos
  unfold Bitmap.test
  rw [Nat.mul_add_div hpos, Nat.mul_add_mod, Nat.div_eq_of_lt hx, Nat.mod_eq_of_lt hx, add_zero]

lemma shiftLeftWord_congr {src' : Bitmap L}
    (h : ∀ i ≤ k, src i = src' i) :
    shiftLeftWord src lim left off rem k = shiftLeftWord src' lim left off rem k := by
  unfold shiftLeftWord
  rw [h k le_rfl, h (k - 1) (by omega)]

lemma shiftLeftLoop_word (view : Bitmap L → Bitmap L) (src : Bitmap L) (lim left off rem : ℕ)
    (hkeep : ∀ (d : Bitmap L) (k : ℕ) (w : BitVec L.bits), (∀ i ≤ k, view d i = src i) →
      ∀ i < k, view (Function.update d (k + off) w) i = src i) :
    ∀ (k : ℕ) (dst : Bitmap L), (∀ i < k, view dst i = src i) → ∀ j,
      shiftLeftLoop view lim left off rem k dst j
        = if off ≤ j ∧ j < k + off then shiftLeftWord src lim left off rem (j - off) else dst j
  | 0, dst, _, j => by rw [shiftLeftLoop, if_neg (by omega)]
  | k + 1, dst, hd, j => by
    have hread : ∀ i ≤ k, view dst i = src i := fun i hi => hd i (by omega)
    rw [shiftLeftLoop, shiftLeftWord_congr hread,
      shiftLeftLoop_word view src lim left off rem hkeep k _ (hkeep dst k _ hread)]
    rcases lt_trichotomy j (k + off) with hj | rfl | hj
    · rw [Function.update_of_ne (by omega)]
      by_cases ho : off ≤ j
      · rw [if_pos (by omega), if_pos (by omega)]
      · rw [if_neg (by omega), if_neg (by omega)]
    · rw [if_neg (by omega), if_pos (by omega), Function.update_self, Nat.add_sub_cancel]
    · rw [if_neg (by omega), if_neg (by omega), Function.update_of_ne (by omega)]

lemma update_below (d : Bitmap L) (w : BitVec L.bits)
    (h : ∀ i ≤ k, d i = src i) : ∀ i < k, Function.update d (k + off) w i = src i := by
  intro i hi
  rw [Function.update_of_ne (by omega)]
  exact h i hi.le

lemma getLsbD_lowMask {w : ℕ} (hr : r < w) :
    (BitVec.ofNat w (2 ^ left - 1)).getLsbD r = decide (r < left) := by
  rw [BitVec.getLsbD_ofNat, Nat.testBit_two_pow_sub_one]
  simp [hr]

lemma shiftLeftWord_getLsbD (src : Bitmap L) (hr : r < L.bits)
    (hrem : rem < L.bits) (hlast : left ≠ 0 → k + off = lim - 1 → r < left) (hko : k + off < lim) :
    (shiftLeftWord src lim left off rem k).getLsbD r
      = if r < rem then decide (0 < k) && (src (k - 1)).getLsbD (L.bits - rem + r)
        else (src k).getLsbD (r - rem) := by
  have hmask : ∀ (x : BitVec L.bits) (i j : ℕ), i < L.bits → (left ≠ 0 → j = lim - 1 → i < left) →
      (if left ≠ 0 ∧ j = lim - 1 then x &&& BitVec.ofNat L.bits (2 ^ left - 1) else x).getLsbD i
        = x.getLsbD i := by
    intro x i j hi hlt
    split_ifs with hc
    · rw [BitVec.getLsbD_and, getLsbD_lowMask hi]
      simp [hlt hc.1 hc.2]
    · rfl
  unfold shiftLeftWord
  simp only []
  rw [hmask _ r (k + off) hr hlast, BitVec.getLsbD_or, BitVec.getLsbD_ushiftRight,
    BitVec.getLsbD_shiftLeft]
  by_cases hrr : r < rem
  · have hlow : (if rem ≠ 0 ∧ 0 < k then src (k - 1) else 0).getLsbD (L.bits - rem + r)
        = (decide (0 < k) && (src (k - 1)).getLsbD (L.bits - rem + r)) := by
      by_cases hk : 0 < k
      · rw [if_pos (by omega), decide_eq_true hk, Bool.true_and]
      · rw [if_neg (by omega), decide_eq_false hk, Bool.false_and]
        exact BitVec.getLsbD_zero
    rw [if_pos hrr, hlow]
    simp [hrr]
  · rw [if_neg hrr, BitVec.getLsbD_of_ge _ (L.bits - rem + r) (by omega),
      hmask _ (r - rem) k (by omega) fun h1 h2 => by omega]
    simp [hr, hrr]

lemma bitmapShiftLeft_test (src : Bitmap L) (shift : ℕ) {bits n : ℕ} (hn : n < bits) :
    (bitmapShiftLeft id src shift bits).test n = (decide (shift ≤ n) && src.test (n - shift)) := by
  have hpos := L.bits_pos
  obtain ⟨q, r, hr, rfl⟩ : ∃ q r, r < L.bits ∧ n = L.bits * q + r :=
    ⟨n / L.bits, n % L.bits, Nat.mod_lt _ hpos, (Nat.div_add_mod _ _).symm⟩
  obtain ⟨off, rem, hrem, rfl⟩ : ∃ q r, r < L.bits ∧ shift = L.bits * q + r :=
    ⟨shift / L.bits, shift % L.bits, Nat.mod_lt _ hpos, (Nat.div_add_mod _ _).symm⟩
  have hdiv : (L.bits * off + rem) / L.bits = off := by
    rw [Nat.mul_add_div hpos, Nat.div_eq_of_lt hrem, add_zero]
  have hmod : (L.bits * off + rem) % L.bits = rem := by rw [Nat.mul_add_mod, Nat.mod_eq_of_lt hrem]
  have hlim : L.bits * q + r < L.bits * bitsToLongs L bits := by
    have := Nat.div_add_mod (bits + L.bits - 1) L.bits
    have := Nat.mod_lt (bits + L.bits - 1) hpos
    unfold bitsToLongs
    omega
  have hq : q < bitsToLongs L bits := by
    by_contra hge
    have := Nat.mul_le_mul_left L.bits (not_lt.1 hge)
    omega
  rw [Bitmap.test_mul_add _ _ hr]
  unfold bitmapShiftLeft
  simp only [hdiv, hmod]
  rw [shiftLeftLoop_word id src _ _ _ _ (fun d _ w h => update_below d w h) _ _ fun _ _ => rfl]
  by_cases hoff : q < off
  · have hle := Nat.mul_le_mul_left L.bits (Nat.succ_le_of_lt hoff)
    rw [Nat.mul_succ] at hle
    rw [if_pos hoff, decide_eq_false (by omega), Bool.false_and]
    exact BitVec.getLsbD_zero
  obtain ⟨k, rfl⟩ : ∃ k, q = k + off := ⟨q - off, by omega⟩
  rw [if_neg (by omega), if_pos (by omega), Nat.add_sub_cancel,
    shiftLeftWord_getLsbD src hr hrem ?_ (by omega)]
  · rw [mul_add] at *
    split_ifs with hrr
    · rcases Nat.eq_zero_or_pos k with rfl | hk
      · simp only [lt_self_iff_false, decide_false, Bool.false_and, mul_zero, zero_add,
          Bool.false_eq, Bool.and_eq_false_imp, decide_eq_true_eq]
        omega
      · obtain ⟨k, rfl⟩ : ∃ k', k = k' + 1 := ⟨k - 1, by omega⟩
        rw [mul_add, mul_one] at *
        rw [show L.bits * k + L.bits + L.bits * off + r - (L.bits * off + rem)
            = L.bits * k + (L.bits - rem + r) by omega,
          Bitmap.test_mul_add _ _ (by omega), Nat.add_sub_cancel,
          decide_eq_true (show L.bits * off + rem
          ≤ L.bits * k + L.bits + L.bits * off + r by omega)]
        simp
    · rw [show L.bits * k + L.bits * off + r - (L.bits * off + rem)
        = L.bits * k + (r - rem) by omega, Bitmap.test_mul_add _ _ (by omega),
        decide_eq_true (show L.bits * off + rem ≤ L.bits * k + L.bits * off + r by omega)]
      simp
  · intro hleft hlast
    have hd := Nat.div_add_mod bits L.bits
    have hlt := Nat.mod_lt bits hpos
    have hlim' : bitsToLongs L bits = bits / L.bits + 1 := by
      unfold bitsToLongs
      rw [show bits + L.bits - 1 = L.bits * (bits / L.bits + 1) + (bits % L.bits - 1) by
          rw [mul_add]; omega,
        Nat.mul_add_div hpos, Nat.div_eq_of_lt (show bits % L.bits - 1 < L.bits by omega),
        add_zero]
    have hqe : k + off = bits / L.bits := by omega
    rw [hqe] at hn
    omega

lemma lowerDigit_spec : ∀ d < 16, isspace (lowerDigit d) = false ∧ lowerDigit d ≠ 0
    ∧ lowerDigit d ≠ 44 ∧ isxdigit (lowerDigit d) = true ∧ unhex (lowerDigit d) = d := by decide

def readDigits (v : ℕ) (ds : List ℕ) : ℕ := ds.foldl (fun a d => 16 * a + d) v

lemma readDigits_eq (v : ℕ) : ∀ ds : List ℕ,
    readDigits v ds = v * 16 ^ ds.length + readDigits 0 ds := by
  intro ds
  induction ds generalizing v with
  | nil => simp [readDigits]
  | cons d ds ih =>
    have h1 := ih (16 * v + d)
    have h2 := ih d
    simp only [readDigits, foldl_cons, length_cons, mul_zero, zero_add] at h1 h2 ⊢
    rw [h1, h2, pow_succ]
    ring

lemma le_readDigits (v : ℕ) (ds : List ℕ) : v ≤ readDigits v ds := by
  rw [readDigits_eq]
  exact (Nat.le_mul_of_pos_right v (by positivity)).trans (Nat.le_add_right _ _)

lemma chunk_room {x : BitVec 32} (h : x.toNat < 2 ^ 28) :
    x &&& ~~~((1 : BitVec 32) <<< (chunkSz - 4) - 1) = 0 := by
  have hmask : (1 : BitVec 32) <<< (chunkSz - 4) - 1 = BitVec.ofNat 32 (2 ^ 28 - 1) := rfl
  refine BitVec.eq_of_getLsbD_eq fun i hi => ?_
  rw [hmask, BitVec.getLsbD_and, BitVec.getLsbD_not, getLsbD_lowMask hi]
  by_cases hi28 : i < 28
  · simp [hi28]
  · rw [← BitVec.testBit_toNat, Nat.testBit_eq_false_of_lt
      (h.trans_le (Nat.pow_le_pow_right (by omega) (by omega)))]
    simp

lemma chunk_push {x : BitVec 32} (h : x.toNat < 2 ^ 28) {d : ℕ} (hd : d < 16) :
    (x <<< 4 ||| BitVec.ofNat 32 d).toNat = 16 * x.toNat + d := by
  have hx : x.toNat <<< 4 % 2 ^ 32 = x.toNat <<< 4 := by
    rw [Nat.shiftLeft_eq, Nat.mod_eq_of_lt]
    omega
  rw [BitVec.toNat_or, BitVec.toNat_shiftLeft, BitVec.toNat_ofNat, hx,
    Nat.mod_eq_of_lt (show d < 2 ^ 32 by omega), ← Nat.shiftLeft_add_eq_or_of_lt (by omega),
    Nat.shiftLeft_eq]
  omega

lemma getChunk_digits : ∀ (ds : List ℕ) (tail : List (Option UInt8)) (s : ChunkState),
    (∀ d ∈ ds, d < 16) → isspace s.c = false → readDigits s.chunk.toNat ds < 2 ^ 32 →
    ∃ c, isspace c = false ∧ (ds = [] ∧ c = s.c ∨ c ≠ 44)
      ∧ getChunk (ds.map (fun d => some (lowerDigit d)) ++ tail) s
        = getChunk tail ⟨c, BitVec.ofNat 32 (readDigits s.chunk.toNat ds), s.ndigits + ds.length,
          s.totaldigits + ds.length⟩
  | [], tail, s, _, hc, _ => ⟨s.c, hc, .inl ⟨rfl, rfl⟩, by simp [readDigits]⟩
  | d :: ds, tail, s, hd, hc, hv => by
    obtain ⟨h1, h2, h3, h4, h5⟩ := lowerDigit_spec d (hd d (by simp))
    have hd16 : d < 16 := hd d (by simp)
    have hv' : readDigits (16 * s.chunk.toNat + d) ds < 2 ^ 32 := hv
    have hle := le_readDigits (16 * s.chunk.toNat + d) ds
    have hlt : s.chunk.toNat < 2 ^ 28 := by omega
    have hnew := chunk_push hlt hd16
    obtain ⟨c, hs, hc44, hg⟩ := getChunk_digits ds tail
      ⟨lowerDigit d, s.chunk <<< 4 ||| BitVec.ofNat 32 d, s.ndigits + 1, s.totaldigits + 1⟩
      (fun x hx => hd x (by simp [hx])) h1 (by rw [hnew]; exact hv')
    refine ⟨c, hs, .inr ?_, ?_⟩
    · rcases hc44 with ⟨-, rfl⟩ | hc44
      · exact h3
      · exact hc44
    rw [map_cons, cons_append, getChunk, if_neg (by simp [h1]), if_neg (by simp [hc]),
      if_neg (by simp [h2, h3]), if_neg (by simp [h4]), if_neg (by simp only [chunk_room hlt,
      ne_eq, not_true_eq_false, not_false_eq_true]), h5, hg, hnew]
    simp only [readDigits, foldl_cons, length_cons]
    congr 2 <;> omega

lemma numberHex_digits {num width : ℕ} (hw : 0 < width) (h : num < 16 ^ width) :
    ∃ ds : List ℕ, ds.length = width ∧ (∀ d ∈ ds, d < 16) ∧ readDigits 0 ds = num
      ∧ numberHex num width = ds.map lowerDigit := by
  set digits := if num = 0 then [0] else Nat.digits 16 num with hdig
  have hlen : digits.length ≤ width := by
    rw [hdig]
    split_ifs with h0
    · exact hw
    · exact (Nat.digits_length_le_iff (by omega) num).2 h
  have hval : ∀ l : List ℕ, readDigits 0 l.reverse = Nat.ofDigits 16 l := by
    intro l
    rw [readDigits, foldl_reverse, Nat.ofDigits_eq_foldr]
    congr 1
    funext a b
    simp [add_comm]
  refine ⟨replicate (width - digits.length) 0 ++ digits.reverse, ?_, fun d hd => ?_, ?_, ?_⟩
  · simp only [length_append, length_replicate, length_reverse]
    omega
  · rcases mem_append.1 hd with hd | hd
    · rw [eq_of_mem_replicate hd]
      omega
    · rw [mem_reverse, hdig] at hd
      split_ifs at hd with h0
      · simp only [mem_singleton] at hd
        omega
      · exact Nat.digits_lt_base (by omega) hd
  · have hz : ∀ n, readDigits 0 (replicate n 0) = 0 := by
      intro n
      induction n with
      | zero => rfl
      | succ n ih => simpa [readDigits, replicate_succ] using ih
    have happ : readDigits 0 (replicate (width - digits.length) 0 ++ digits.reverse)
        = readDigits (readDigits 0 (replicate (width - digits.length) 0)) digits.reverse := by
      simp [readDigits, foldl_append]
    rw [happ, hz, hval, hdig]
    split_ifs with h0
    · simp [h0]
    · exact Nat.ofDigits_digits 16 num
  · have hmap : (if num = 0 then [48] else (Nat.digits 16 num).map lowerDigit)
        = digits.map lowerDigit := by
      rw [hdig]
      split_ifs
      · rfl
      · rfl
    unfold numberHex
    simp only [hmap, length_map, map_append, map_replicate, map_reverse]
    rfl

section

variable (maskp : Bitmap L) (nmaskbits : ℕ)

/-- The value `bitmap_scnprintf` prints for chunk `k`, of which `chunksz` bits are displayed. -/
def chunkVal (chunksz k : ℕ) : ℕ :=
  (maskp (chunkSz * k / L.bits) >>> (chunkSz * k % L.bits)
    &&& (BitVec.ofNat 32 (2 ^ chunksz - 1)).setWidth L.bits).toNat

/-- The chunks below `k`, each after its comma. -/
def chunksText : ℕ → List UInt8
  | 0 => []
  | k + 1 => 44 :: (numberHex (chunkVal maskp chunkSz k) 8 ++ chunksText k)

lemma chunkVal_testBit {chunksz j : ℕ} (hc : chunksz ≤ 32) :
    (chunkVal maskp chunksz k).testBit j = (decide (j < chunksz) && maskp.test (32 * k + j)) := by
  have hdvd : ∃ m, L.bits = 32 * m ∧ 0 < m := by
    cases L
    · exact ⟨1, rfl, by omega⟩
    · exact ⟨2, rfl, by omega⟩
  unfold chunkVal
  rw [BitVec.testBit_toNat, BitVec.getLsbD_and, BitVec.getLsbD_ushiftRight]
  by_cases hj : j < chunksz
  · have hbit : chunkSz * k % L.bits + j < L.bits := by
      obtain ⟨m, hm, hm0⟩ := hdvd
      rw [hm, chunkSz, Nat.mul_mod_mul_left]
      have := Nat.mod_lt k hm0
      omega
    have hpos : 32 * k + j = L.bits * (chunkSz * k / L.bits) + (chunkSz * k % L.bits + j) := by
      have := Nat.div_add_mod (chunkSz * k) L.bits
      rw [chunkSz] at *
      omega
    rw [hpos, Bitmap.test_mul_add _ _ hbit, BitVec.getLsbD_setWidth, getLsbD_lowMask (by omega),
      decide_eq_true (show j < L.bits by omega), decide_eq_true hj]
    simp
  · have hm : ((BitVec.ofNat 32 (2 ^ chunksz - 1)).setWidth L.bits).getLsbD j = false := by
      rw [BitVec.getLsbD_setWidth, BitVec.getLsbD_ofNat, Nat.testBit_two_pow_sub_one,
        decide_eq_false hj]
      simp
    rw [hm, decide_eq_false hj]
    simp

lemma chunkVal_lt (chunksz k : ℕ) (hc : chunksz ≤ 32) :
    chunkVal maskp chunksz k < 2 ^ chunksz := by
  refine Nat.lt_pow_two_of_testBit _ fun j hj => ?_
  rw [chunkVal_testBit maskp hc, decide_eq_false (by omega), Bool.false_and]

lemma chunkVal_lt_pow (k : ℕ) : chunkVal maskp chunkSz k < 16 ^ 8 :=
  (chunkVal_lt maskp chunkSz k le_rfl).trans_le (by norm_num [chunkSz])

lemma chunkVal_lt_hex {chunksz : ℕ} (hc : chunksz ≤ 32) (k : ℕ) :
    chunkVal maskp chunksz k < 16 ^ ((chunksz + 3) / 4) := by
  refine (chunkVal_lt maskp _ _ hc).trans_le ?_
  rw [show 16 = 2 ^ 4 from rfl, ← pow_mul]
  exact Nat.pow_le_pow_right (by omega) (by omega)

lemma numberHex_length {num width : ℕ} (hw : 0 < width) (h : num < 16 ^ width) :
    (numberHex num width).length = width := by
  obtain ⟨ds, hlen, -, -, he⟩ := numberHex_digits hw h
  rw [he, length_map, hlen]

lemma scnprintfLoop_chunks (buflen : ℕ) : ∀ (k : ℕ) (out : List UInt8),
    out.length + 9 * k < buflen →
    scnprintfLoop maskp buflen k chunkSz [44] out = out ++ chunksText maskp k
  | 0, out, _ => by simp [scnprintfLoop, chunksText]
  | k + 1, out, h => by
    have hlt := chunkVal_lt_pow maskp k
    have hlen : ([44] ++ numberHex (chunkVal maskp chunkSz k) 8).length = 9 := by
      rw [length_append, numberHex_length (by omega) hlt]
      rfl
    have hstep : scnprintf (buflen - out.length) ([44] ++ numberHex (chunkVal maskp chunkSz k) 8)
        = [44] ++ numberHex (chunkVal maskp chunkSz k) 8 := by
      rw [scnprintf, take_of_length_le (by omega)]
    rw [scnprintfLoop, show (chunkSz + 3) / 4 = 8 from rfl]
    unfold chunkVal at hstep hlen
    rw [hstep, scnprintfLoop_chunks buflen k _ (by rw [length_append]; omega), chunksText, chunkVal]
    simp

def firstChunkSz : ℕ := (nmaskbits - 1) % 32 + 1

lemma align_toNat (x : BitVec 32) (k : ℕ) :
    (x &&& ~~~(BitVec.ofNat 32 (2 ^ k - 1))).toNat = x.toNat / 2 ^ k * 2 ^ k := by
  have hx : x &&& ~~~(BitVec.ofNat 32 (2 ^ k - 1)) = x >>> k <<< k := by
    refine BitVec.eq_of_getLsbD_eq fun i hi => ?_
    rw [BitVec.getLsbD_and, BitVec.getLsbD_not, getLsbD_lowMask hi, BitVec.getLsbD_shiftLeft,
      BitVec.getLsbD_ushiftRight]
    by_cases hik : i < k
    · simp [hik]
    · rw [show k + (i - k) = i by omega]
      simp [hi, hik]
  have hle := Nat.div_mul_le_self x.toNat (2 ^ k)
  rw [hx, BitVec.toNat_shiftLeft, BitVec.toNat_ushiftRight, Nat.shiftLeft_eq,
    Nat.shiftRight_eq_div_pow, Nat.mod_eq_of_lt (by omega)]

lemma align_passes {nmaskbits : ℕ} (h0 : 0 < nmaskbits) (h : nmaskbits < 2 ^ 31) :
    ((align (BitVec.ofNat 32 nmaskbits) 32 - 32).toInt / chunkSz + 1).toNat
      = (nmaskbits - 1) / 32 + 1 := by
  have hadd : (BitVec.ofNat 32 nmaskbits + 31).toNat = nmaskbits + 31 := by
    rw [BitVec.toNat_add, BitVec.toNat_ofNat, show (31 : BitVec 32).toNat = 31 from rfl]
    omega
  have hsub : (align (BitVec.ofNat 32 nmaskbits) 32 - 32).toNat = (nmaskbits - 1) / 32 * 32 := by
    have hal := align_toNat (BitVec.ofNat 32 nmaskbits + 31) 5
    rw [show BitVec.ofNat 32 (2 ^ 5 - 1) = 31 from rfl, hadd] at hal
    rw [align, show (32 : BitVec 32) - 1 = 31 from rfl, BitVec.toNat_sub, hal,
      show (32 : BitVec 32).toNat = 32 from rfl]
    omega
  rw [BitVec.toInt_eq_toNat_of_lt (by omega), hsub, chunkSz]
  omega

lemma bitmapScnprintf_eq {nmaskbits buflen : ℕ} (h0 : 0 < nmaskbits) (h : nmaskbits < 2 ^ 31)
    (hbuf : (firstChunkSz nmaskbits + 3) / 4 + 9 * ((nmaskbits - 1) / 32) < buflen) :
    bitmapScnprintf buflen maskp nmaskbits
      = numberHex (chunkVal maskp (firstChunkSz nmaskbits) ((nmaskbits - 1) / 32))
          ((firstChunkSz nmaskbits + 3) / 4) ++ chunksText maskp ((nmaskbits - 1) / 32) := by
  have hsz : (if nmaskbits % chunkSz = 0 then chunkSz else nmaskbits % chunkSz)
      = firstChunkSz nmaskbits := by
    unfold firstChunkSz chunkSz
    split_ifs <;> omega
  have hle : firstChunkSz nmaskbits ≤ 32 := by
    unfold firstChunkSz
    omega
  have hpos : 0 < firstChunkSz nmaskbits := by
    unfold firstChunkSz
    omega
  have hlen := numberHex_length (by omega) (chunkVal_lt_hex maskp hle ((nmaskbits - 1) / 32))
  unfold bitmapScnprintf
  simp only [hsz, align_passes h0 h]
  rw [scnprintfLoop]
  unfold chunkVal at hlen ⊢
  rw [nil_append, nil_append, scnprintf, take_of_length_le
    (by rw [hlen]; simp only [length_nil]; omega), scnprintfLoop_chunks _ _ _ _ (by omega)]

end

section

variable (maskp : Bitmap L) {nmaskbits n nbits : ℕ} {c : UInt8}

def pushChunk (nmaskbits : ℕ) (m : Bitmap L) (chunk : BitVec 32) : Bitmap L :=
  let m := bitmapShiftLeft id m chunkSz nmaskbits
  Function.update m 0 (m 0 ||| chunk.setWidth L.bits)

lemma pushChunk_test (m : Bitmap L) (chunk : BitVec 32) (hn : n < nmaskbits) :
    (pushChunk nmaskbits m chunk).test n = if n < 32 then chunk.getLsbD n else m.test (n - 32) := by
  have hge := L.bits_ge
  have hs := bitmapShiftLeft_test m chunkSz hn
  rw [chunkSz] at hs
  by_cases hw : n < L.bits
  · have h0 : ∀ b : Bitmap L, b.test n = (b 0).getLsbD n := fun b => by
      simpa using b.test_mul_add 0 hw
    rw [h0] at hs
    rw [h0, pushChunk]
    simp only [Function.update_self]
    rw [BitVec.getLsbD_or, chunkSz, hs, BitVec.getLsbD_setWidth]
    split_ifs with h32
    · rw [decide_eq_false (by omega), decide_eq_true hw]
      simp
    · rw [decide_eq_true (by omega), BitVec.getLsbD_of_ge chunk n (by omega)]
      simp
  · have hne : n / L.bits ≠ 0 := (Nat.div_pos (by omega) (by omega)).ne'
    rw [if_neg (by omega), pushChunk]
    simp only [chunkSz]
    unfold Bitmap.test at hs ⊢
    rw [Function.update_of_ne hne, hs, decide_eq_true (by omega), Bool.true_and]

lemma parseLoop_chunk {buf buf' : List (Option UInt8)} {td nchunks : ℕ}
    {m : Bitmap L} {s : ChunkState} (hg : getChunk buf ⟨c, 0, 0, td⟩ = .ok (buf', s))
    (hd : s.ndigits ≠ 0) :
    parseLoop nmaskbits buf c td nchunks nbits m = if nchunks = 0 ∧ s.chunk = 0 then
        if buf' ≠ [] ∧ s.c = 44 then parseLoop nmaskbits buf' s.c s.totaldigits nchunks nbits m
        else (0, m)
      else if nmaskbits < nbits + (if nchunks = 0 then s.chunk.toNat.size else 32) then
        (-EOVERFLOW, pushChunk nmaskbits m s.chunk)
      else if buf' ≠ [] ∧ s.c = 44 then
        parseLoop nmaskbits buf' s.c s.totaldigits (nchunks + 1)
          (nbits + if nchunks = 0 then s.chunk.toNat.size else 32) (pushChunk nmaskbits m s.chunk)
      else (0, pushChunk nmaskbits m s.chunk) := by
  rw [parseLoop]
  split
  · rename_i e h
    rw [hg] at h
    simp at h
  rename_i b s' h
  rw [hg] at h
  obtain ⟨rfl, rfl⟩ : buf' = b ∧ s = s' := by simpa using h
  rw [dif_neg hd]
  simp only [Nat.add_eq_right, pushChunk, chunkSz]

/-- The parse with the chunks from `k` on read: their bits, moved down. -/
structure ParsedTo (nmaskbits k nchunks nbits : ℕ) (m : Bitmap L) : Prop where
  bits : ∀ n < nmaskbits, m.test n = (decide (n + 32 * k < nmaskbits) && maskp.test (n + 32 * k))
  zero : nchunks = 0 → nbits = 0 ∧ ∀ n < nmaskbits, 32 * k ≤ n → maskp.test n = false
  count : nchunks ≠ 0 → nbits + 32 * k ≤ nmaskbits

section

variable (k : ℕ) {chunksz nchunks : ℕ} {m : Bitmap L} (hc : chunksz ≤ 32)
  (hend : ∀ j < 32, j < chunksz ↔ 32 * k + j < nmaskbits)
  (h : ParsedTo maskp nmaskbits (k + 1) nchunks nbits m)

include hc in
lemma chunk_getLsbD {j : ℕ} (hj : j < 32) :
    (BitVec.ofNat 32 (chunkVal maskp chunksz k)).getLsbD j
      = (decide (j < chunksz) && maskp.test (32 * k + j)) := by
  rw [BitVec.getLsbD_ofNat, decide_eq_true hj, Bool.true_and, chunkVal_testBit maskp hc]

variable {maskp} {k}

include hc hend h in
lemma ParsedTo.zero_from (h0 : nchunks = 0)
    (hz : BitVec.ofNat 32 (chunkVal maskp chunksz k) = 0) :
    ∀ n < nmaskbits, 32 * k ≤ n → maskp.test n = false := by
  intro n hn hk
  by_cases hk' : 32 * (k + 1) ≤ n
  · exact (h.zero h0).2 n hn hk'
  · have hb := chunk_getLsbD maskp k hc (show n - 32 * k < 32 by omega)
    rw [hz, decide_eq_true ((hend _ (by omega)).2 (by omega)),
      show 32 * k + (n - 32 * k) = n by omega] at hb
    simpa using hb.symm

include hc hend h in
lemma ParsedTo.skip (h0 : nchunks = 0) (hz : BitVec.ofNat 32 (chunkVal maskp chunksz k) = 0) :
    ParsedTo maskp nmaskbits k nchunks nbits m := by
  have hlow := h.zero_from hc hend h0 hz
  have hfalse : ∀ n, 32 * k ≤ n → (decide (n < nmaskbits) && maskp.test n) = false := by
    intro n hk
    by_cases hlt : n < nmaskbits
    · rw [hlow _ hlt hk, Bool.and_false]
    · rw [decide_eq_false hlt, Bool.false_and]
  exact {
    bits := fun n hn => by rw [h.bits n hn, hfalse _ (by omega), hfalse _ (by omega)]
    zero := fun _ => ⟨(h.zero h0).1, hlow⟩
    count := fun hne => absurd h0 hne }

include hc hend h in
lemma ParsedTo.push (hpos : 0 < chunksz) :
    ParsedTo maskp nmaskbits k (nchunks + 1)
      (nbits + if nchunks = 0 then (BitVec.ofNat 32 (chunkVal maskp chunksz k)).toNat.size else 32)
      (pushChunk nmaskbits m (BitVec.ofNat 32 (chunkVal maskp chunksz k))) where
  bits n hn := by
    rw [pushChunk_test m _ hn]
    split_ifs with h32
    · rw [chunk_getLsbD maskp k hc h32, add_comm n]
      congr 1
      exact decide_eq_decide.2 (hend n h32)
    · rw [h.bits _ (by omega), show n - 32 + 32 * (k + 1) = n + 32 * k by omega]
  zero hne := absurd hne (by omega)
  count _ := by
    have hend' := (hend (chunksz - 1) (by omega)).1 (by omega)
    split_ifs with h0
    · obtain ⟨hn0, -⟩ := h.zero h0
      have hlt := chunkVal_lt maskp chunksz k hc
      have hle : chunkVal maskp chunksz k % 2 ^ 32 ≤ chunkVal maskp chunksz k := Nat.mod_le _ _
      have hsz : (BitVec.ofNat 32 (chunkVal maskp chunksz k)).toNat.size ≤ chunksz := by
        rw [BitVec.toNat_ofNat]
        exact Nat.size_le.2 (by omega)
      omega
    · have := h.count h0
      omega

include hc hend h in
lemma ParsedTo.pass (hpos : 0 < chunksz) {buf buf' : List (Option UInt8)} {td : ℕ}
    {s : ChunkState} (hg : getChunk buf ⟨c, 0, 0, td⟩ = .ok (buf', s)) (hd : s.ndigits ≠ 0)
    (hs : s.chunk = BitVec.ofNat 32 (chunkVal maskp chunksz k)) :
    ∃ nchunks' nbits' m', ParsedTo maskp nmaskbits k nchunks' nbits' m'
      ∧ parseLoop nmaskbits buf c td nchunks nbits m = if buf' ≠ [] ∧ s.c = 44 then
            parseLoop nmaskbits buf' s.c s.totaldigits nchunks' nbits' m'
          else (0, m') := by
  rw [parseLoop_chunk hg hd, hs]
  by_cases hz : nchunks = 0 ∧ BitVec.ofNat 32 (chunkVal maskp chunksz k) = 0
  · exact ⟨nchunks, nbits, m, h.skip hc hend hz.1 hz.2, if_pos hz⟩
  have hp := h.push hc hend hpos
  refine ⟨_, _, _, hp, ?_⟩
  rw [if_neg hz, if_neg]
  have := hp.count (by omega)
  omega

end

lemma getChunk_hex {chunksz : ℕ} (hpos : 0 < chunksz) (hc : chunksz ≤ 32) (k : ℕ)
    (hsp : isspace c = false) (td : ℕ) (tail : List (Option UInt8)) :
    ∃ c', isspace c' = false ∧ c' ≠ 44
      ∧ getChunk ((numberHex (chunkVal maskp chunksz k) ((chunksz + 3) / 4)).map some ++ tail)
          ⟨c, 0, 0, td⟩
        = getChunk tail ⟨c', BitVec.ofNat 32 (chunkVal maskp chunksz k), (chunksz + 3) / 4,
            td + (chunksz + 3) / 4⟩ := by
  have hw : 0 < (chunksz + 3) / 4 := by omega
  obtain ⟨ds, hlen, hds, hval, he⟩ := numberHex_digits hw (chunkVal_lt_hex maskp hc k)
  have h32 : chunkVal maskp chunksz k < 2 ^ 32 :=
    (chunkVal_lt maskp _ _ hc).trans_le (Nat.pow_le_pow_right (by omega) hc)
  obtain ⟨c', hc', h44, hg⟩ := getChunk_digits ds tail ⟨c, 0, 0, td⟩ hds hsp (hval ▸ h32)
  refine ⟨c', hc', ?_, ?_⟩
  · rcases h44 with ⟨rfl, -⟩ | h44
    · simp only [length_nil] at hlen
      omega
    · exact h44
  · rw [he, map_map]
    change _ = getChunk tail
      ⟨c', BitVec.ofNat 32 (readDigits 0 ds), 0 + ds.length, td + ds.length⟩ at hg
    rw [hval, hlen, zero_add] at hg
    exact hg

lemma parseLoop_chunks (rest : List (Option UInt8))
    (hrest : rest = [] ∨ ∃ r, rest = some 0 :: r) :
    ∀ (k chunksz : ℕ) (c : UInt8) (td nchunks nbits : ℕ) (m : Bitmap L), 0 < chunksz →
      chunksz ≤ 32 → (∀ j < 32, j < chunksz ↔ 32 * k + j < nmaskbits) → isspace c = false →
      ParsedTo maskp nmaskbits (k + 1) nchunks nbits m →
      ∃ m', parseLoop nmaskbits ((numberHex (chunkVal maskp chunksz k) ((chunksz + 3) / 4)
            ++ chunksText maskp k).map some ++ rest) c td nchunks nbits m = (0, m')
        ∧ ∀ n < nmaskbits, m'.test n = maskp.test n := by
  intro k
  induction k with
  | zero =>
    intro chunksz c td nchunks nbits m hpos hc hend hsp h
    obtain ⟨c', -, h44, hg⟩ := getChunk_hex maskp hpos hc 0 hsp td rest
    have hstop : ∃ buf' s, getChunk rest ⟨c', BitVec.ofNat 32 (chunkVal maskp chunksz 0),
          (chunksz + 3) / 4, td + (chunksz + 3) / 4⟩ = .ok (buf', s) ∧ s.ndigits = (chunksz + 3) / 4
        ∧ s.chunk = BitVec.ofNat 32 (chunkVal maskp chunksz 0) ∧ s.c ≠ 44 := by
      rcases hrest with rfl | ⟨r, rfl⟩
      · exact ⟨[], _, rfl, rfl, rfl, h44⟩
      · refine ⟨r, ⟨0, BitVec.ofNat 32 (chunkVal maskp chunksz 0), (chunksz + 3) / 4,
          td + (chunksz + 3) / 4⟩, ?_, rfl, rfl, (by decide : (0 : UInt8) ≠ 44)⟩
        simp [getChunk, isspace]
    obtain ⟨buf', s, hr, hnd, hs, hne⟩ := hstop
    obtain ⟨nchunks', nbits', m', hp, he⟩ := h.pass hc hend hpos (hg.trans hr) (by omega) hs
    refine ⟨m', ?_, fun n hn => ?_⟩
    · rw [chunksText, append_nil, he, if_neg fun h => hne h.2]
    · rw [hp.bits n hn, decide_eq_true (by omega)]
      rfl
  | succ k ih =>
    intro chunksz c td nchunks nbits m hpos hc hend hsp h
    set more := (numberHex (chunkVal maskp 32 k) ((32 + 3) / 4)
      ++ chunksText maskp k).map some ++ rest with hmore
    obtain ⟨c', hsp', -, hg⟩ := getChunk_hex maskp hpos hc (k + 1) hsp td (some 44 :: more)
    have hr : getChunk (some 44 :: more) ⟨c', BitVec.ofNat 32 (chunkVal maskp chunksz (k + 1)),
          (chunksz + 3) / 4, td + (chunksz + 3) / 4⟩
        = .ok (more, ⟨44, BitVec.ofNat 32 (chunkVal maskp chunksz (k + 1)), (chunksz + 3) / 4,
          td + (chunksz + 3) / 4⟩) := by
      rw [getChunk, if_neg (by decide), if_neg (by simp [hsp']), if_pos (.inr rfl)]
    obtain ⟨nchunks', nbits', m', hp, he⟩ :=
      h.pass hc hend hpos (hg.trans hr) (by simp only []; omega) rfl
    have hlow : 32 * (k + 1) < nmaskbits := (hend 0 (by omega)).1 hpos
    obtain ⟨m'', hm, hbits⟩ := ih 32 44 _ nchunks' nbits' m' (by omega) le_rfl
      (fun j hj => by omega) (by decide) hp
    refine ⟨m'', ?_, hbits⟩
    have hne : more ≠ [] := by
      have hlen := numberHex_length (show 0 < (32 + 3) / 4 by omega)
          (chunkVal_lt_hex maskp le_rfl k)
      rw [hmore, map_append, append_assoc]
      refine append_ne_nil_of_left_ne_nil (fun h => ?_) _
      rw [map_eq_nil_iff.1 h] at hlen
      simp at hlen
    rw [if_pos ⟨hne, rfl⟩, hm] at he
    rw [← he, chunksText, map_append, append_assoc, map_cons, cons_append]
    rfl

lemma bitmapZero_test (dst : Bitmap L) (hn : n < nbits) :
    (bitmapZero dst nbits).test n = false := by
  have hw := L.bits_pos
  unfold Bitmap.test bitmapZero bitsToLongs
  rw [if_pos]
  · exact BitVec.getLsbD_zero
  · rw [Nat.div_lt_iff_lt_mul hw]
    have := Nat.lt_div_mul_add (a := nbits + L.bits - 1) hw
    omega

end

end LinuxKernel.Lib
