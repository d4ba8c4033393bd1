import LinuxKernel.BitmapArea
import LinuxKernel.Proofs.BitmapList

/-!
# The search for a free area finds the first one

A search for a clear bit is a search for a set bit in the complement. Between two tries no aligned
area is passed over: it would contain a set bit.
-/

namespace LinuxKernel.Lib

open BitVec

variable {L : LongSize}

def Bitmap.compl (addr : Bitmap L) : Bitmap L := fun k => ~~~addr k

lemma Bitmap.compl_test (addr : Bitmap L) (n : ℕ) : addr.compl.test n = !addr.test n := by
  unfold Bitmap.test Bitmap.compl
  rw [getLsbD_not]
  simp [Nat.mod_lt n L.bits_pos]

lemma eq_allOnes_iff {w : ℕ} {x : BitVec w} : x = allOnes w ↔ ~~~x = 0 := by
  constructor
  · rintro rfl
    exact not_allOnes
  · intro h
    rw [← BitVec.not_not (b := x), h]
    exact not_zero

lemma not_allOnes_shiftLeft {w k : ℕ} (hk : k ≤ w) :
    ~~~(allOnes w <<< k) = allOnes w >>> (w - k) := by
  refine eq_of_getLsbD_eq fun i hi => ?_
  rw [getLsbD_not, getLsbD_shiftLeft, getLsbD_ushiftRight, getLsbD_allOnes, getLsbD_allOnes]
  by_cases h : i < k
  · simp [h, hi, show w - k + i < w by omega]
  · simp [h, hi, show ¬ w - k + i < w by omega, show i - k < w by omega]

lemma foundFirstZero_eq (tmp : BitVec L.bits) (result : ℕ) {size : ℕ} (hs : size ≤ L.bits) :
    foundFirstZero tmp result size = foundFirst (~~~tmp) result size := by
  have hmask : ~~~(tmp ||| (allOnes L.bits <<< size)) =
      ~~~tmp &&& (allOnes L.bits >>> (L.bits - size)) := by
    rw [BitVec.not_or, not_allOnes_shiftLeft hs]
  unfold foundFirstZero foundFirst ffz
  simp only [eq_allOnes_iff, hmask]

lemma findZeroWords_eq (addr : Bitmap L) {size : ℕ} (hs : size ≤ L.bits) : ∀ k p result : ℕ,
    findZeroWords addr size k p result = findWords addr.compl size k p result
  | 0, p, result => by
    rw [findZeroWords, findWords, foundFirstZero_eq _ _ hs]
    rfl
  | k + 1, p, result => by
    rw [findZeroWords, findWords, findZeroWords_eq addr hs k]
    rfl

lemma findNextZeroBit_eq (addr : Bitmap L) (size offset : ℕ) :
    findNextZeroBit addr size offset = findNextBit addr.compl size offset := by
  have hmod : ∀ n, n % L.bits ≤ L.bits := fun n => (Nat.mod_lt n L.bits_pos).le
  have hmask : ~~~(addr (offset / L.bits) ||| (allOnes L.bits >>> (L.bits - offset % L.bits))) =
        addr.compl (offset / L.bits) &&& (allOnes L.bits <<< (offset % L.bits)) := by
    rw [BitVec.not_or, ← not_allOnes_shiftLeft (hmod offset), BitVec.not_not]
    rfl
  unfold findNextZeroBit findNextBit ffz
  simp only [hmask, findZeroWords_eq addr (hmod _)]
  split_ifs with h1 h2 h3
  · rfl
  · rw [foundFirstZero_eq _ _ h3.le, hmask]
  · rfl
  · rfl
  · rfl

lemma findNextZeroBit_spec (addr : Bitmap L) (size offset : ℕ) :
    NextBit (fun n => !addr.test n) offset size (findNextZeroBit addr size offset) := by
  have h := findNextBit_spec addr.compl size offset
  rw [← findNextZeroBit_eq] at h
  have htest : addr.compl.test = fun n => !addr.test n := funext addr.compl_test
  rwa [htest] at h

section

variable {map : Bitmap L} {size start nr k : ℕ}

/-- `nr` clear bits inside `size` from a multiple of `2 ^ k` on, not below `start`. -/
structure ZeroArea (map : Bitmap L) (size start nr k p : ℕ) : Prop where
  aligned : 2 ^ k ∣ p
  start_le : start ≤ p
  inside : p + nr ≤ size
  clear : ∀ i, p ≤ i → i < p + nr → map.test i = false

lemma alignMaskUp_eq {x : ℕ} (hx : x + (2 ^ k - 1) < 2 ^ L.bits) :
    alignMaskUp L x (2 ^ k - 1) = (x + (2 ^ k - 1)) / 2 ^ k * 2 ^ k := by
  have hk : k ≤ L.bits := by
    by_contra hlt
    have hpow := Nat.pow_lt_pow_right (show 1 < 2 by omega) (not_le.mp hlt)
    omega
  rw [alignMaskUp, addMod_of_lt hx, andNot_mask hk hx]

variable (map) in
lemma zeroAreaPass_next (hnr : 1 ≤ nr) (hroom : size + (2 ^ k - 1) + nr < 2 ^ L.bits) (s : ℕ)
    (hs : (start ≤ s ∧ s ≤ size) ∧ ∀ p, ZeroArea map size start nr k p → s ≤ p) :
    (zeroAreaPass map size nr (2 ^ k - 1) s).Next
      (fun s => (start ≤ s ∧ s ≤ size) ∧ ∀ p, ZeroArea map size start nr k p → s ≤ p)
      (fun r => IsLeast {p | ZeroArea map size start nr k p} r ∨
        size < r + nr ∧ ∀ p, ¬ ZeroArea map size start nr k p)
      (fun s => size - s) (size - s) := by
  obtain ⟨⟨hstart, hsize⟩, hbehind⟩ := hs
  have hz := findNextZeroBit_spec map size s
  rw [zeroAreaPass]
  generalize findNextZeroBit map size s = z at hz
  have hzs : z ≤ size := hz.le
  have hsz : s ≤ z := hz.from_le hsize
  rw [alignMaskUp_eq (by omega)]
  have hup := le_roundUp (k := k) (a := z)
  have hdvd : 2 ^ k ∣ (z + (2 ^ k - 1)) / 2 ^ k * 2 ^ k := Nat.dvd_mul_left _ _
  have hround := roundDown_le (k := k) (a := z + (2 ^ k - 1))
  -- an area starts with a clear bit, so not below `z`, and not below `z` rounded up
  have hfrom : ∀ p, ZeroArea map size start nr k p → (z + (2 ^ k - 1)) / 2 ^ k * 2 ^ k ≤ p := by
    intro p hp
    refine roundUp_le hp.aligned ?_
    by_contra hlt
    have hset := hz.miss p (hbehind p hp) (by omega)
    have hclear := hp.clear p le_rfl (by omega)
    simp only [hclear, Bool.not_false, Bool.true_eq_false] at hset
  generalize (z + (2 ^ k - 1)) / 2 ^ k * 2 ^ k = index at hup hdvd hround hfrom
  simp only [addMod_of_lt (show index + nr < 2 ^ L.bits by omega)]
  by_cases hend : size < index + nr
  · rw [if_pos hend]
    refine .inr ⟨by omega, fun p hp => ?_⟩
    have := hfrom p hp
    have := hp.inside
    omega
  rw [if_neg hend]
  have hi := findNextBit_spec map (index + nr) index
  generalize findNextBit map (index + nr) index = i at hi
  by_cases hset : i < index + nr
  · rw [if_pos hset, addMod_of_lt (by omega)]
    obtain ⟨hidx, hbit⟩ := hi.hit hset
    refine ⟨⟨by omega, fun p hp => ?_⟩, show size - (i + 1) < size - s by omega⟩
    by_contra hlt
    have hp' := hfrom p hp
    have hclear := hp.clear i (by omega) (by omega)
    rw [hbit] at hclear
    exact Bool.noConfusion hclear
  · rw [if_neg hset]
    have hlast : i = index + nr := le_antisymm hi.le (not_lt.mp hset)
    exact .inl ⟨⟨hdvd, by omega, by omega, fun j h1 h2 => hi.miss j h1 (by omega)⟩, hfrom⟩

/-- `bitmap_find_next_zero_area` returns, and returns the first aligned area of clear bits, or a
value past the last place for one when there is none. -/
theorem bitmapFindNextZeroArea_least (map : Bitmap L) (hstart : start ≤ size) (hnr : 1 ≤ nr)
    (hroom : size + (2 ^ k - 1) + nr < 2 ^ L.bits) {fuel : ℕ} (hfuel : size < fuel) :
    ∃ r, bitmapFindNextZeroArea fuel map size start nr (2 ^ k - 1) = some r ∧
      ((∃ p, ZeroArea map size start nr k p) → IsLeast {p | ZeroArea map size start nr k p} r) ∧
      (size < r + nr ↔ ∀ p, ¬ ZeroArea map size start nr k p) := by
  obtain ⟨r, hrun, hr⟩ := Pass.run_of_next (zeroAreaPass_next map hnr hroom) fuel
    ⟨⟨le_rfl, hstart⟩, fun p hp => hp.start_le⟩ (show size - start < fuel by omega)
  refine ⟨r, hrun, ?_, ?_⟩
  · rintro ⟨p, hp⟩
    rcases hr with hleast | ⟨-, hnone⟩
    · exact hleast
    · exact absurd hp (hnone p)
  · rcases hr with hleast | ⟨hlt, hnone⟩
    · refine ⟨fun hlt => ?_, fun hnone => absurd hleast.1 (hnone r)⟩
      have := hleast.1.inside
      omega
    · exact ⟨fun _ => hnone, fun _ => hlt⟩

theorem bitmapFindNextZeroArea_least_eight :
    let map : Bitmap .long32 := fun _ => 0x21
    ∃ r, bitmapFindNextZeroArea 65 map 64 0 4 (2 ^ 2 - 1) = some r ∧
      ((∃ p, ZeroArea map 64 0 4 2 p) → IsLeast {p | ZeroArea map 64 0 4 2 p} r) ∧
      (64 < r + 4 ↔ ∀ p, ¬ ZeroArea map 64 0 4 2 p) :=
  bitmapFindNextZeroArea_least _ (by decide) (by decide) (by decide) (by decide)

end

end LinuxKernel.Lib
