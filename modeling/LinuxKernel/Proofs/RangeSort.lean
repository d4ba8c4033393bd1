import LinuxKernel.RangeSort

/-!
# Cleaning and sorting an array of ranges

The first loop moves the last range in use to the first free slot, until the ranges in use are in
front. The second finds how many they are, unless all slots are in use. The comparison for the
sort is that of the starts when they are less than `2 ^ 31` apart.
-/

namespace LinuxKernel.Kernel

open Function List

def usedRanges (range : Ranges) (az : ℕ) : List Range :=
  ((List.range az).map range).filter fun p => p.fin ≠ 0

variable {range range' : Ranges} {az : ℕ}

lemma usedRanges_congr : ∀ {az : ℕ},
    (∀ i < az, range' i = range i ∨ (range' i).fin = 0 ∧ (range i).fin = 0) →
    usedRanges range' az = usedRanges range az
  | 0, _ => rfl
  | az + 1, h => by
    have ih := usedRanges_congr fun i hi => h i (Nat.lt_succ_of_lt hi)
    unfold usedRanges at ih ⊢
    rw [range_succ, map_append, filter_append, ih, map_append, filter_append]
    congr 1
    rcases h az (Nat.lt_succ_self az) with he | ⟨h1, h2⟩
    · simp [he]
    · simp [h1, h2]

lemma Rearranged.usedRanges (h : Rearranged az range range') :
    (usedRanges range' az).Perm (usedRanges range az) :=
  h.perm.filter _

lemma usedRanges_move {i j : ℕ} (hi : i < az) (hj : j < az) (hij : i ≠ j)
    (hfree : (range i).fin = 0) :
    (usedRanges (update (update range i (range j)) j ⟨0, 0⟩) az).Perm
      (usedRanges range az) := by
  have hcongr : usedRanges (update (update range i (range j)) j ⟨0, 0⟩) az =
      usedRanges (swapAt range i j) az :=
    usedRanges_congr fun k _ => by
      by_cases hkj : k = j
      · rw [hkj, update_self, swapAt_right]
        exact .inr ⟨rfl, hfree⟩
      by_cases hki : k = i
      · rw [hki, update_of_ne hij, update_self, swapAt_left]
        exact .inl rfl
      · rw [update_of_ne hkj, update_of_ne hki, swapAt_of_ne _ hki hkj]
        exact .inl rfl
  rw [hcongr]
  exact Rearranged.usedRanges (rearranged_swapAt hi hj)

lemma usedRanges_front {m : ℕ} (hm : m ≤ az)
    (hused : ∀ i < m, (range i).fin ≠ 0) (hfree : ∀ i, m ≤ i → i < az → (range i).fin = 0) :
    usedRanges range az = (List.range m).map range := by
  obtain ⟨d, rfl⟩ := Nat.exists_eq_add_of_le hm
  unfold usedRanges
  rw [range_add, map_append, filter_append]
  have h1 : ((List.range m).map range).filter (fun p => p.fin ≠ 0) = (List.range m).map range := by
    rw [filter_eq_self]
    intro p hp
    obtain ⟨i, hi, rfl⟩ := mem_map.mp hp
    simpa using hused i (mem_range.mp hi)
  have h2 : (((List.range d).map (m + ·)).map range).filter (fun p => p.fin ≠ 0) = [] := by
    rw [filter_eq_nil_iff]
    intro p hp
    obtain ⟨i, hi, rfl⟩ := mem_map.mp hp
    obtain ⟨k, hk, rfl⟩ := mem_map.mp hi
    simpa using hfree (m + k) (by omega) (by have := mem_range.mp hk; omega)
  rw [h1, h2, append_nil]

lemma lastUsed_spec (range : Ranges) (i : ℕ) : ∀ m : ℕ,
    (lastUsed range i m = none ∧ ∀ l, i < l → l ≤ i + m → (range l).fin = 0) ∨
      ∃ j, lastUsed range i m = some j ∧ (i < j ∧ j ≤ i + m) ∧ (range j).fin ≠ 0 ∧
        ∀ l, j < l → l ≤ i + m → (range l).fin = 0
  | 0 => Or.inl ⟨rfl, fun l h1 h2 => by omega⟩
  | m + 1 => by
    rw [lastUsed]
    by_cases hused : (range (i + m + 1)).fin ≠ 0
    · rw [if_pos hused]
      exact .inr ⟨i + m + 1, rfl, by omega, hused, fun l h1 h2 => by omega⟩
    rw [if_neg hused]
    have hfree := not_not.mp hused
    rcases lastUsed_spec range i m with ⟨hn, h⟩ | ⟨j, hs, hj, hu, h⟩
    · refine .inl ⟨hn, fun l h1 h2 => ?_⟩
      rcases Nat.eq_or_lt_of_le h2 with rfl | h2
      · exact hfree
      · exact h l h1 (by omega)
    · refine .inr ⟨j, hs, by omega, hu, fun l h1 h2 => ?_⟩
      rcases Nat.eq_or_lt_of_le h2 with rfl | h2
      · exact hfree
      · exact h l h1 (by omega)

/-- The slots below `i` are in use, those above `k` are free. -/
structure Compacting (range : Ranges) (az i k : ℕ) : Prop where
  used : ∀ l < i, (range l).fin ≠ 0
  free : ∀ l, k < l → l < az → (range l).fin = 0

lemma compactRanges_spec : ∀ (n i k : ℕ) {range : Ranges}, k ≤ i + n → i ≤ k + 1 → k < az →
    Compacting range az i k →
    (usedRanges (compactRanges n i k range) az).Perm (usedRanges range az) ∧
      ∃ m ≤ az, (∀ l < m, (compactRanges n i k range l).fin ≠ 0) ∧
        ∀ l, m ≤ l → l < az → (compactRanges n i k range l).fin = 0 := by
  -- where the loop ends at `i = k` or `i = k + 1`, slot `k` may be in use or not
  have hstop : ∀ {i k : ℕ} {range : Ranges}, ¬ i < k → i ≤ k + 1 → k < az →
      Compacting range az i k → (usedRanges range az).Perm (usedRanges range az) ∧
        ∃ m ≤ az, (∀ l < m, (range l).fin ≠ 0) ∧ ∀ l, m ≤ l → l < az → (range l).fin = 0 := by
    intro i k range hik hle hk h
    refine ⟨Perm.refl _, ?_⟩
    by_cases hlast : (range k).fin = 0
    · refine ⟨k, hk.le, fun l hl => h.used l (by omega), fun l h1 h2 => ?_⟩
      rcases Nat.eq_or_lt_of_le h1 with rfl | h1
      · exact hlast
      · exact h.free l h1 h2
    · refine ⟨k + 1, hk, fun l hl => ?_, fun l h1 h2 => h.free l h1 h2⟩
      rcases Nat.eq_or_lt_of_le (Nat.le_of_lt_succ hl) with rfl | hl
      · exact hlast
      · exact h.used l (by omega)
  intro n
  induction n with
  | zero =>
    intro i k range hn hle hk h
    exact hstop (by omega) hle hk h
  | succ n ih =>
    intro i k range hn hle hk h
    rw [compactRanges]
    by_cases hik : i < k
    swap
    · rw [if_neg hik]
      exact hstop hik hle hk h
    rw [if_pos hik]
    by_cases hused : (range i).fin ≠ 0
    · rw [if_pos hused]
      refine ih (i + 1) k (by omega) (by omega) hk ⟨fun l hl => ?_, h.free⟩
      rcases Nat.eq_or_lt_of_le (Nat.le_of_lt_succ hl) with rfl | hl
      · exact hused
      · exact h.used l hl
    rw [if_neg hused]
    have hfree := not_not.mp hused
    rcases lastUsed_spec range i (k - i) with ⟨hnone, hall⟩ | ⟨j, hsome, hj, hju, hall⟩
    · simp only [hnone]
      refine ⟨Perm.refl _, i, by omega, h.used, fun l h1 h2 => ?_⟩
      rcases Nat.eq_or_lt_of_le h1 with rfl | h1
      · exact hfree
      · by_cases hlk : l ≤ k
        · exact hall l h1 (by omega)
        · exact h.free l (by omega) h2
    simp only [hsome]
    set range' := update (update range i (range j)) j ⟨0, 0⟩ with hr
    have hold : ∀ l, l ≠ i → l ≠ j → range' l = range l := fun l h1 h2 => by
      rw [hr, update_of_ne h2, update_of_ne h1]
    have hmoved : range' i = range j := by rw [hr, update_of_ne (by omega), update_self]
    have hcomp : Compacting range' az (i + 1) (j - 1) := by
      refine ⟨fun l hl => ?_, fun l h1 h2 => ?_⟩
      · rcases Nat.eq_or_lt_of_le (Nat.le_of_lt_succ hl) with rfl | hl
        · rw [hmoved]
          exact hju
        · rw [hold l (by omega) (by omega)]
          exact h.used l hl
      · by_cases hlj : l = j
        · rw [hlj, hr, update_self]
        · rw [hold l (by omega) hlj]
          by_cases hlk : l ≤ k
          · exact hall l (by omega) (by omega)
          · exact h.free l (by omega) h2
    obtain ⟨h1, h2⟩ := ih (i + 1) (j - 1) (by omega) (by omega) (by omega) hcomp
    exact ⟨h1.trans (usedRanges_move (by omega) (by omega) (by omega) hfree), h2⟩

lemma countRanges_eq {m : ℕ} (hused : ∀ l < m, (range l).fin ≠ 0)
    (hfree : (range m).fin = 0) : ∀ (n i : ℕ), i ≤ m → m < i + n → countRanges range n i = m
  | 0, i, h1, h2 => by omega
  | n + 1, i, h1, h2 => by
    rw [countRanges]
    rcases Nat.eq_or_lt_of_le h1 with rfl | h1
    · rw [if_pos hfree]
    · rw [if_neg (hused i h1)]
      exact countRanges_eq hused hfree n (i + 1) h1 (by omega)

lemma cmpRange_lt {x1 x2 : Range} (h1 : x1.start < x2.start + 2 ^ 31)
    (h2 : x2.start < x1.start + 2 ^ 31) : cmpRange x1 x2 < 0 ↔ x1.start < x2.start := by
  unfold cmpRange
  rw [BitVec.toInt_eq_toNat_cond, BitVec.toNat_setWidth, BitVec.toNat_sub, BitVec.toNat_ofNat,
    BitVec.toNat_ofNat]
  split_ifs with hc <;> omega

def threeRanges : Ranges := fun i => if i = 1 then ⟨4, 6⟩ else if i = 2 then ⟨1, 3⟩ else ⟨0, 0⟩

end LinuxKernel.Kernel
