import Mathlib

/-!
# Heap sort

A heap in an array, with the children of `p` at `2 * p + 1` and `2 * p + 2`. Sifting down restores
a heap that is in order but for one place; building the heap and taking its largest element to the
end, over and over, sorts.
-/

namespace LinuxKernel

open List

variable {α : Type*}

section

def swapAt (a : ℕ → α) (i j : ℕ) : ℕ → α := fun k => a (Equiv.swap i j k)

variable (lt : α → α → Bool)

/-- The larger child of `r`, of those below `n`. -/
def largerChild (n r : ℕ) (a : ℕ → α) : ℕ :=
  let c := 2 * r + 1
  if c + 1 < n ∧ lt (a c) (a (c + 1)) = true then c + 1 else c

lemma largerChild_bounds {n r : ℕ} (h : 2 * r + 1 < n) (a : ℕ → α) :
    r < largerChild lt n r a ∧ largerChild lt n r a < n := by
  unfold largerChild
  simp only
  split_ifs with hc <;> omega

def siftDown (n r : ℕ) (a : ℕ → α) : ℕ → α :=
  if _h : 2 * r + 1 < n then
    if lt (a r) (a (largerChild lt n r a)) = true then
      siftDown n (largerChild lt n r a) (swapAt a r (largerChild lt n r a))
    else a
  else a
termination_by n - r
decreasing_by
  have := largerChild_bounds lt _h a
  omega

/-- Sift down at `k - 1`, …, `0`. -/
def heapify (n : ℕ) : ℕ → (ℕ → α) → ℕ → α
  | 0, a => a
  | k + 1, a => heapify n k (siftDown lt n k a)

/-- Take the first element to `i`, …, `1`, and sift down below. -/
def sortDown : ℕ → (ℕ → α) → ℕ → α
  | 0, a => a
  | i + 1, a => sortDown i (siftDown lt (i + 1) 0 (swapAt a 0 (i + 1)))

def heapSort (n : ℕ) (a : ℕ → α) : ℕ → α := sortDown lt (n - 1) (heapify lt n (n / 2) a)

end

section

/-- The elements below `n` in another order, the others where they were. -/
def Rearranged (n : ℕ) (a a' : ℕ → α) : Prop :=
  ∃ σ : Equiv.Perm ℕ, (∀ i, n ≤ i → σ i = i) ∧ ∀ k, a' k = a (σ k)

variable {n : ℕ} {a a' a'' : ℕ → α}

lemma Rearranged.refl (n : ℕ) (a : ℕ → α) : Rearranged n a a := ⟨1, fun _ _ => rfl, fun _ => rfl⟩

section

variable (h : Rearranged n a a')

include h

lemma Rearranged.trans (h' : Rearranged n a' a'') :
    Rearranged n a a'' := by
  obtain ⟨σ, hσ, ha⟩ := h
  obtain ⟨τ, hτ, ha'⟩ := h'
  refine ⟨τ.trans σ, fun i hi => ?_, fun k => ?_⟩
  · rw [Equiv.trans_apply, hτ i hi, hσ i hi]
  · rw [ha', ha, Equiv.trans_apply]

lemma Rearranged.mono {m : ℕ} (hnm : n ≤ m) : Rearranged m a a' := by
  obtain ⟨σ, hσ, ha⟩ := h
  exact ⟨σ, fun i hi => hσ i (hnm.trans hi), ha⟩

omit h in
lemma rearranged_swapAt {i j : ℕ} (hi : i < n) (hj : j < n) : Rearranged n a (swapAt a i j) :=
  ⟨Equiv.swap i j, fun _ hk => Equiv.swap_apply_of_ne_of_ne (by omega) (by omega), fun _ => rfl⟩

lemma Rearranged.above {i : ℕ} (hi : n ≤ i) : a' i = a i := by
  obtain ⟨σ, hσ, ha⟩ := h
  rw [ha, hσ i hi]

lemma Rearranged.below {i : ℕ} (hi : i < n) : ∃ j < n, a' i = a j := by
  obtain ⟨σ, hσ, ha⟩ := h
  refine ⟨σ i, ?_, ha i⟩
  by_contra hge
  have := σ.injective (hσ (σ i) (not_lt.mp hge))
  omega

lemma Rearranged.perm :
    ((range n).map a').Perm ((range n).map a) := by
  obtain ⟨σ, hσ, ha⟩ := h
  have hmap : (range n).map a' = ((range n).map σ).map a := by
    rw [map_map]
    exact map_congr_left fun k _ => ha k
  rw [hmap]
  refine Perm.map a ((perm_ext_iff_of_nodup ?_ nodup_range).mpr fun k => ?_)
  · exact nodup_range.map σ.injective
  rw [mem_map, mem_range]
  constructor
  · rintro ⟨i, hi, rfl⟩
    by_contra hge
    have := σ.injective (hσ (σ i) (not_lt.mp hge))
    rw [mem_range] at hi
    omega
  · intro hk
    refine ⟨σ.symm k, ?_, σ.apply_symm_apply k⟩
    rw [mem_range]
    by_contra hge
    have := hσ (σ.symm k) (not_lt.mp hge)
    rw [σ.apply_symm_apply] at this
    omega

end

end

def IsChild (p c : ℕ) : Prop := c = 2 * p + 1 ∨ c = 2 * p + 2

lemma IsChild.lt {p c : ℕ} (h : IsChild p c) : p < c := by
  unfold IsChild at h
  omega

lemma IsChild.unique {p p' c : ℕ} (h : IsChild p c) (h' : IsChild p' c) : p = p' := by
  unfold IsChild at h h'
  omega

lemma isChild_parent {c : ℕ} (h : 0 < c) : IsChild ((c - 1) / 2) c := by
  unfold IsChild
  omega

/-- The sign of `cmp` is that of a total preorder. -/
structure TotalPreorder (cmp : α → α → ℤ) : Prop where
  sign : ∀ a b, cmp a b < 0 ↔ 0 < cmp b a
  trans : ∀ a b c, cmp a b ≤ 0 → cmp b c ≤ 0 → cmp a c ≤ 0

lemma TotalPreorder.exists_key.{u} {α : Type u} {cmp : α → α → ℤ} (h : TotalPreorder cmp) :
    ∃ (β : Type u) (_ : LinearOrder β) (key : α → β), ∀ a b, cmp a b < 0 ↔ key a < key b := by
  classical
  let _ : Preorder α :=
    { le := fun a b => cmp a b ≤ 0
      le_refl := fun a => not_lt.mp fun hlt => absurd ((h.sign a a).mpr hlt) hlt.le.not_gt
      le_trans := h.trans }
  have _ : Std.Total (α := α) (· ≤ ·) :=
    ⟨fun a b => (le_or_gt (cmp a b) 0).imp id fun hlt => ((h.sign b a).mpr hlt).le⟩
  refine ⟨Antisymmetrization α (· ≤ ·), inferInstance, toAntisymmetrization (· ≤ ·), fun a b => ?_⟩
  show cmp a b < 0 ↔ cmp a b ≤ 0 ∧ ¬ cmp b a ≤ 0
  rw [not_le, ← h.sign]
  exact ⟨fun hlt => ⟨hlt.le, hlt⟩, And.right⟩

section

variable {β : Type*} [LinearOrder β] {lt : α → α → Bool} {key : α → β} {n : ℕ} {a a' : ℕ → α}

/-- Among the elements below `n`, the comparison is that of the keys. -/
def Keyed (lt : α → α → Bool) (key : α → β) (n : ℕ) (a : ℕ → α) : Prop :=
  ∀ i < n, ∀ j < n, lt (a i) (a j) = true ↔ key (a i) < key (a j)

lemma Keyed.rearranged (h : Keyed lt key n a) (hr : Rearranged n a a') : Keyed lt key n a' := by
  intro i hi j hj
  obtain ⟨i', hi', he⟩ := hr.below hi
  obtain ⟨j', hj', he'⟩ := hr.below hj
  rw [he, he']
  exact h i' hi' j' hj'

variable {k m r : ℕ}

lemma Keyed.mono (h : Keyed lt key n a) (hmn : m ≤ n) : Keyed lt key m a :=
  fun i hi j hj => h i (by omega) j (by omega)

def HeapFrom (key : α → β) (n k : ℕ) (a : ℕ → α) : Prop :=
  ∀ p c, k ≤ p → c < n → IsChild p c → key (a c) ≤ key (a p)

/-- A heap from `k` on but for the children of `r`, which are not larger than the parent of `r`. -/
structure HeapOff (key : α → β) (n k r : ℕ) (a : ℕ → α) : Prop where
  off : ∀ p c, k ≤ p → c < n → IsChild p c → p ≠ r → key (a c) ≤ key (a p)
  across : ∀ q c, k ≤ q → IsChild q r → c < n → IsChild r c → key (a c) ≤ key (a q)

lemma largerChild_spec (hkey : Keyed lt key n a) (h : 2 * r + 1 < n) :
    IsChild r (largerChild lt n r a) ∧
      ∀ c < n, IsChild r c → key (a c) ≤ key (a (largerChild lt n r a)) := by
  unfold largerChild
  simp only
  by_cases hc : 2 * r + 1 + 1 < n ∧ lt (a (2 * r + 1)) (a (2 * r + 1 + 1)) = true
  · rw [if_pos hc]
    refine ⟨.inr rfl, fun c _ hchild => ?_⟩
    rcases hchild with rfl | rfl
    · exact ((hkey _ h _ hc.1).mp hc.2).le
    · exact le_rfl
  · rw [if_neg hc]
    refine ⟨.inl rfl, fun c hcn hchild => ?_⟩
    rcases hchild with rfl | rfl
    · exact le_rfl
    · refine not_lt.mp fun hlt => hc ⟨hcn, ?_⟩
      exact (hkey _ h _ hcn).mpr hlt

lemma swapAt_left (a : ℕ → α) (i j : ℕ) : swapAt a i j i = a j := by
  rw [swapAt, Equiv.swap_apply_left]

lemma swapAt_right (a : ℕ → α) (i j : ℕ) : swapAt a i j j = a i := by
  rw [swapAt, Equiv.swap_apply_right]

lemma swapAt_of_ne (a : ℕ → α) {i j : ℕ} (hi : k ≠ i) (hj : k ≠ j) : swapAt a i j k = a k := by
  rw [swapAt, Equiv.swap_apply_of_ne_of_ne hi hj]

lemma HeapOff.swap (h : HeapOff key n k r a) (hk : k ≤ r) (hm : m < n)
    (hchild : IsChild r m) (hmax : ∀ c < n, IsChild r c → key (a c) ≤ key (a m))
    (hlt : key (a r) < key (a m)) : HeapOff key n k m (swapAt a r m) := by
  have hrm := hchild.lt
  refine ⟨fun p c hp hc hpc hpm => ?_, fun q c hq hqm hc hmc => ?_⟩
  · by_cases hpr : p = r
    · subst hpr
      rw [swapAt_left]
      by_cases hcm : c = m
      · rw [hcm, swapAt_right]
        exact hlt.le
      · rw [swapAt_of_ne a hpc.lt.ne' hcm]
        exact hmax c hc hpc
    · rw [swapAt_of_ne a hpr hpm]
      by_cases hcr : c = r
      · subst hcr
        rw [swapAt_left]
        exact h.across p m hp hpc hm hchild
      have hcm : c ≠ m := by
        rintro rfl
        exact hpr (hpc.unique hchild)
      rw [swapAt_of_ne a hcr hcm]
      exact h.off p c hp hc hpc hpr
  · have hcm := hmc.lt
    rw [hqm.unique hchild, swapAt_left, swapAt_of_ne a (by omega) (by omega)]
    exact h.off m c (by omega) hc hmc (by omega)

lemma siftDown_rearranged (lt : α → α → Bool) (n r : ℕ) (a : ℕ → α) :
    Rearranged n a (siftDown lt n r a) := by
  fun_induction siftDown lt n r a with
  | case1 r a h hlt ih =>
    obtain ⟨h1, h2⟩ := largerChild_bounds lt h a
    exact (rearranged_swapAt (by omega) h2).trans ih
  | case2 r a h hlt => exact Rearranged.refl n a
  | case3 r a h => exact Rearranged.refl n a

lemma siftDown_heap (hk : k ≤ r) (hkey : Keyed lt key n a)
    (h : HeapOff key n k r a) : HeapFrom key n k (siftDown lt n r a) := by
  fun_induction siftDown lt n r a with
  | case1 r a hin hlt ih =>
    obtain ⟨h1, h2⟩ := largerChild_bounds lt hin a
    obtain ⟨hchild, hmax⟩ := largerChild_spec hkey hin
    have hlt' := (hkey r (by omega) _ h2).mp hlt
    exact ih (by omega) (hkey.rearranged (rearranged_swapAt (by omega) h2))
      (h.swap hk h2 hchild hmax hlt')
  | case2 r a hin hlt =>
    obtain ⟨h1, h2⟩ := largerChild_bounds lt hin a
    obtain ⟨hchild, hmax⟩ := largerChild_spec hkey hin
    have hge := not_lt.mp fun hlt' => hlt ((hkey r (by omega) _ h2).mpr hlt')
    intro p c hp hc hpc
    by_cases hpr : p = r
    · subst hpr
      exact (hmax c hc hpc).trans hge
    · exact h.off p c hp hc hpc hpr
  | case3 r a hin =>
    intro p c hp hc hpc
    by_cases hpr : p = r
    · unfold IsChild at hpc
      omega
    · exact h.off p c hp hc hpc hpr

lemma heapify_spec : ∀ (k : ℕ) {a : ℕ → α}, Keyed lt key n a → HeapFrom key n k a →
    Rearranged n a (heapify lt n k a) ∧ HeapFrom key n 0 (heapify lt n k a)
  | 0, a, _, h => ⟨Rearranged.refl n a, h⟩
  | k + 1, a, hkey, h => by
    have hoff : HeapOff key n k k a :=
      ⟨fun p c hp hc hpc hpk => h p c (by omega) hc hpc, fun q c hq hqk => absurd hqk.lt (by omega)⟩
    have hsift := siftDown_rearranged lt n k a
    obtain ⟨h1, h2⟩ := heapify_spec k (hkey.rearranged hsift) (siftDown_heap le_rfl hkey hoff)
    exact ⟨hsift.trans h1, h2⟩

lemma HeapFrom.le_root (h : HeapFrom key n 0 a) : ∀ i < n, key (a i) ≤ key (a 0) := by
  intro i
  induction i using Nat.strong_induction_on with
  | _ i ih =>
    intro hi
    rcases Nat.eq_zero_or_pos i with rfl | hpos
    · exact le_rfl
    · exact (h _ i (Nat.zero_le _) hi (isChild_parent hpos)).trans (ih _ (by omega) (by omega))

/-- Between passes of the second loop: a heap of `m` elements below the others, which are sorted. -/
structure Drained (key : α → β) (n m : ℕ) (a : ℕ → α) : Prop where
  heap : HeapFrom key m 0 a
  low : ∀ i < m, ∀ j, m ≤ j → j < n → key (a i) ≤ key (a j)
  sorted : ∀ i j, m ≤ i → i ≤ j → j < n → key (a i) ≤ key (a j)

lemma Drained.step {i : ℕ} (hi : i + 1 < n) (hkey : Keyed lt key n a)
    (h : Drained key n (i + 2) a) :
    Drained key n (i + 1) (siftDown lt (i + 1) 0 (swapAt a 0 (i + 1))) := by
  have hswap : Rearranged n a (swapAt a 0 (i + 1)) := rearranged_swapAt (by omega) hi
  have hsift := siftDown_rearranged lt (i + 1) 0 (swapAt a 0 (i + 1))
  have hkey' : Keyed lt key (i + 1) (swapAt a 0 (i + 1)) := (hkey.rearranged hswap).mono (by omega)
  have hoff : HeapOff key (i + 1) 0 0 (swapAt a 0 (i + 1)) := by
    refine ⟨fun p c _ hc hpc hp0 => ?_, fun q c _ hq0 => absurd hq0.lt (by omega)⟩
    have hlt := hpc.lt
    rw [swapAt_of_ne a (by omega) (by omega), swapAt_of_ne a hp0 (by omega)]
    exact h.heap p c (Nat.zero_le p) (by omega) hpc
  have hroot := h.heap.le_root
  -- what is behind the new heap: the old largest element, then the old tail
  have hlast : siftDown lt (i + 1) 0 (swapAt a 0 (i + 1)) (i + 1) = a 0 := by
    rw [hsift.above le_rfl, swapAt_right]
  have htail : ∀ j, i + 2 ≤ j → siftDown lt (i + 1) 0 (swapAt a 0 (i + 1)) j = a j := by
    intro j hj
    rw [hsift.above (by omega), swapAt_of_ne a (by omega) (by omega)]
  have hfront : ∀ j < i + 1, ∃ l < i + 2, siftDown lt (i + 1) 0 (swapAt a 0 (i + 1)) j = a l := by
    intro j hj
    obtain ⟨l, hl, he⟩ := hsift.below hj
    have hswap' : Rearranged (i + 2) a (swapAt a 0 (i + 1)) :=
      rearranged_swapAt (by omega) (by omega)
    obtain ⟨l', hl', he'⟩ := hswap'.below (show l < i + 2 by omega)
    exact ⟨l', hl', he.trans he'⟩
  refine ⟨siftDown_heap le_rfl hkey' hoff, fun j hj l hl hln => ?_, fun j l hj hjl hln => ?_⟩
  · obtain ⟨j', hj', he⟩ := hfront j hj
    rw [he]
    rcases Nat.eq_or_lt_of_le hl with rfl | hl
    · rw [hlast]
      exact hroot j' hj'
    · rw [htail l hl]
      exact h.low j' hj' l hl hln
  · rcases Nat.eq_or_lt_of_le hj with rfl | hj
    · rw [hlast]
      rcases Nat.eq_or_lt_of_le hjl with rfl | hjl
      · rw [hlast]
      · rw [htail l hjl]
        exact h.low 0 (by omega) l hjl hln
    · rw [htail j hj, htail l (by omega)]
      exact h.sorted j l hj hjl hln

lemma sortDown_spec : ∀ (i : ℕ) {a : ℕ → α}, i < n → Keyed lt key n a → Drained key n (i + 1) a →
    Rearranged n a (sortDown lt i a) ∧
      ∀ j l, j ≤ l → l < n → key (sortDown lt i a j) ≤ key (sortDown lt i a l)
  | 0, a, _, _, h => by
    refine ⟨Rearranged.refl n a, fun j l hjl hl => ?_⟩
    rw [sortDown]
    rcases Nat.eq_zero_or_pos j with rfl | hj
    · rcases Nat.eq_zero_or_pos l with rfl | hl0
      · exact le_rfl
      · exact h.low 0 (by omega) l hl0 hl
    · exact h.sorted j l hj hjl hl
  | i + 1, a, hi, hkey, h => by
    have hswap : Rearranged n a (swapAt a 0 (i + 1)) := rearranged_swapAt (by omega) hi
    have hsift := siftDown_rearranged lt (i + 1) 0 (swapAt a 0 (i + 1))
    have hall := hswap.trans (hsift.mono (show i + 1 ≤ n by omega))
    obtain ⟨h1, h2⟩ := sortDown_spec i (by omega) (hkey.rearranged hall) (h.step hi hkey)
    exact ⟨hall.trans h1, h2⟩

lemma heapSort_spec (hkey : Keyed lt key n a) :
    Rearranged n a (heapSort lt n a) ∧
      ∀ i j, i ≤ j → j < n → key (heapSort lt n a i) ≤ key (heapSort lt n a j) := by
  have hleaf : HeapFrom key n (n / 2) a := by
    intro p c hp hc hpc
    unfold IsChild at hpc
    omega
  obtain ⟨h1, h2⟩ := heapify_spec (n / 2) hkey hleaf
  rw [heapSort]
  rcases Nat.eq_zero_or_pos n with rfl | hpos
  · exact ⟨h1, fun i j _ hj => by omega⟩
  have hdrained : Drained key n (n - 1 + 1) (heapify lt n (n / 2) a) := by
    rw [Nat.sub_add_cancel hpos]
    exact ⟨h2, fun _ _ j h3 h4 => by omega, fun i j h3 h4 h5 => by omega⟩
  obtain ⟨h3, h4⟩ := sortDown_spec (n - 1) (by omega) (hkey.rearranged h1) hdrained
  exact ⟨h1.trans h3, h4⟩

end

end LinuxKernel
