import LinuxKernel.Sort

/-!
# `sort` sorts

On the elements the loops over byte offsets are those of heap sort.
-/

namespace LinuxKernel.Lib

open RingBuffer

def elements (size : ℕ) (base : Bytes) : ℕ → List UInt8 := fun k => memread base (k * size) size

def Exchanges (swapFunc : Bytes → ℕ → ℕ → ℕ → Bytes) (size : ℕ) : Prop :=
  ∀ base i j, i ≠ j →
    elements size (swapFunc base (i * size) (j * size) size) = swapAt (elements size base) i j

variable {size : ℕ}

lemma swapBytes_eq : ∀ (k : ℕ) (base : Bytes) {a b : ℕ}, a + k ≤ b ∨ b + k ≤ a →
    swapBytes k base a b = exchangeBytes k base a b
  | 0, base, a, b, _ => by
    funext x
    rw [swapBytes, exchangeBytes, if_neg (by omega), if_neg (by omega)]
  | k + 1, base, a, b, h => by
    funext x
    rw [swapBytes, swapBytes_eq k _ (by omega), exchangeBytes, exchangeBytes]
    rcases eq_or_ne x b with rfl | hb
    · rw [if_neg (by omega), if_neg (by omega), swapAt_right, if_pos (by omega), Nat.sub_self,
        add_zero]
    rcases eq_or_ne x a with rfl | ha
    · rw [if_neg (by omega), if_neg (by omega), swapAt_left, if_neg (by omega), if_pos (by omega),
        Nat.sub_self, add_zero]
    by_cases h1 : b ≤ x ∧ x < b + (k + 1)
    · rw [if_pos (by omega), if_pos h1, swapAt_of_ne _ (by omega) (by omega),
        show a + 1 + (x - (b + 1)) = a + (x - b) by omega]
    rw [if_neg (by omega), if_neg h1]
    by_cases h2 : a ≤ x ∧ x < a + (k + 1)
    · rw [if_pos (by omega), if_pos h2, swapAt_of_ne _ (by omega) (by omega),
        show b + 1 + (x - (a + 1)) = b + (x - a) by omega]
    · rw [if_neg (by omega), if_neg h2, swapAt_of_ne _ ha hb]

lemma exchanges_of_eq {swapFunc : Bytes → ℕ → ℕ → ℕ → Bytes}
    (h : ∀ base a b, a + size ≤ b ∨ b + size ≤ a →
      swapFunc base a b size = exchangeBytes size base a b) : Exchanges swapFunc size := by
  intro base i j hij
  funext k
  have hapart : ∀ {i j : ℕ}, i ≠ j → i * size + size ≤ j * size ∨ j * size + size ≤ i * size := by
    intro i j hij
    rcases Nat.lt_or_gt_of_ne hij with hlt | hlt
    · left
      nlinarith
    · right
      nlinarith
  have hread : ∀ l, (∀ m < size, swapFunc base (i * size) (j * size) size (k * size + m)
      = base (l * size + m)) → elements size (swapFunc base (i * size) (j * size) size) k
      = elements size base l := fun l hl => memread_congr hl
  have hdist := hapart hij
  by_cases hi : k = i
  · subst hi
    rw [swapAt_left]
    refine hread j fun m hm => ?_
    rw [h _ _ _ hdist, exchangeBytes, if_neg (by omega), if_pos (by omega), Nat.add_sub_cancel_left]
  by_cases hj : k = j
  · subst hj
    rw [swapAt_right]
    refine hread i fun m hm => ?_
    rw [h _ _ _ hdist, exchangeBytes, if_pos (by omega), Nat.add_sub_cancel_left]
  · rw [swapAt_of_ne _ hi hj]
    refine hread k fun m hm => ?_
    have h1 := hapart hi
    have h2 := hapart hj
    rw [h _ _ _ hdist, exchangeBytes, if_neg (by omega), if_neg (by omega)]

lemma exchanges_default (hsize : 0 < size) :
    Exchanges (if size = 4 then u32Swap else genericSwap) size := by
  refine exchanges_of_eq fun base a b hab => ?_
  by_cases h4 : size = 4
  · subst h4
    rfl
  · rw [if_neg h4, genericSwap, max_eq_left hsize, swapBytes_eq size base hab]

section

variable (cmpFunc : List UInt8 → List UInt8 → ℤ) {swapFunc : Bytes → ℕ → ℕ → ℕ → Bytes}

lemma childAt_eq (hsize : 0 < size) {n r : ℕ} (base : Bytes) :
    childAt cmpFunc size (n * size) (r * size) base
      = largerChild (fun a b => decide (cmpFunc a b < 0)) n r (elements size base) * size := by
  have h1 : r * size * 2 + size = (2 * r + 1) * size := by ring
  have h2 : (2 * r + 1) * size + size = (2 * r + 1 + 1) * size := by ring
  have h3 : (2 * r + 1) * size < n * size - size ↔ 2 * r + 1 + 1 < n := by
    rw [Nat.lt_sub_iff_add_lt, h2]
    exact Nat.mul_lt_mul_right hsize
  unfold childAt largerChild
  simp only [h1, h2, h3, decide_eq_true_iff]
  rw [apply_ite (· * size)]
  rfl

lemma siftBytes_elements (hsize : 0 < size) (hswap : Exchanges swapFunc size) {n : ℕ} :
    ∀ (r : ℕ) (base : Bytes),
      elements size (siftBytes cmpFunc swapFunc size (n * size) (r * size) base)
        = siftDown (fun a b => decide (cmpFunc a b < 0)) n r (elements size base) := by
  have hcond : ∀ {r : ℕ}, 2 * r + 1 < n → r * size * 2 + size < n * size := by
    intro r hin
    calc r * size * 2 + size = (2 * r + 1) * size := by ring
      _ < n * size := Nat.mul_lt_mul_of_pos_right hin hsize
  have hread : ∀ base k, memread base (k * size) size = elements size base k := fun _ _ => rfl
  intro r base
  generalize hb : elements size base = b
  fun_induction siftDown (fun a b => decide (cmpFunc a b < 0)) n r b generalizing base with
  | case1 r b hin hlt ih =>
    subst hb
    have hlt' := (largerChild_bounds (fun a b => decide (cmpFunc a b < 0)) hin
      (elements size base)).1
    rw [siftBytes, dif_pos ⟨hcond hin, hsize⟩]
    simp only [childAt_eq cmpFunc hsize, hread]
    rw [if_neg (not_le.mpr (of_decide_eq_true hlt))]
    exact ih _ (hswap base r _ hlt'.ne)
  | case2 r b hin hlt =>
    subst hb
    rw [siftBytes, dif_pos ⟨hcond hin, hsize⟩]
    simp only [childAt_eq cmpFunc hsize, hread]
    rw [if_pos (not_lt.mp fun h => hlt (decide_eq_true h))]
  | case3 r b hin =>
    have hstop : ¬ (r * size * 2 + size < n * size ∧ 0 < size) := by
      rintro ⟨h, -⟩
      rw [show r * size * 2 + size = (2 * r + 1) * size by ring] at h
      exact hin (Nat.lt_of_mul_lt_mul_right h)
    rw [siftBytes, dif_neg hstop, hb]

lemma bmod_of_small {x : ℤ} (h1 : -2 ^ 31 ≤ x) (h2 : x < 2 ^ 31) : x.bmod (2 ^ 32) = x :=
  Int.bmod_eq_of_le (by omega) (by omega)

lemma heapifyPass_run (hsize : 0 < size) (hsmall : size < 2 ^ 31)
    (hswap : Exchanges swapFunc size) {n : ℕ} :
    ∀ (k fuel : ℕ) (base : Bytes), k < fuel → k * size < 2 ^ 31 → ∃ base',
      Pass.run (heapifyPass cmpFunc swapFunc size (n * size)) fuel (((k : ℤ) - 1) * size, base)
        = some base' ∧ elements size base'
        = heapify (fun a b => decide (cmpFunc a b < 0)) n k (elements size base)
  | 0, fuel + 1, base, _, _ => by
    refine ⟨base, ?_, rfl⟩
    rw [Pass.run, heapifyPass, if_neg (by push_cast; omega)]
  | k + 1, fuel + 1, base, hfuel, hk => by
    have hsize' : (k + 1) * size = k * size + size := by ring
    have hi : ((k + 1 : ℕ) - 1 : ℤ) * size = (k * size : ℕ) := by push_cast; ring
    have hnext : (((k * size : ℕ) : ℤ) - size).bmod (2 ^ 32) = ((k : ℤ) - 1) * size := by
      rw [bmod_of_small (by omega) (by omega)]
      push_cast
      ring
    obtain ⟨base', hrun, hel⟩ := heapifyPass_run hsize hsmall hswap k fuel
      (siftBytes cmpFunc swapFunc size (n * size) (k * size) base) (by omega) (by omega)
    rw [siftBytes_elements cmpFunc hsize hswap] at hel
    refine ⟨base', ?_, hel⟩
    rw [Pass.run, heapifyPass, hi, if_pos (Int.natCast_nonneg _), Int.toNat_natCast, hnext]
    exact hrun

lemma sortPass_run (hsize : 0 < size) (hswap : Exchanges swapFunc size) :
    ∀ (i fuel : ℕ) (base : Bytes), i < fuel → i * size < 2 ^ 31 → ∃ base',
      Pass.run (sortPass cmpFunc swapFunc size) fuel (((i * size : ℕ) : ℤ), base) = some base' ∧
      elements size base' = sortDown (fun a b => decide (cmpFunc a b < 0)) i (elements size base)
  | 0, fuel + 1, base, _, _ => by
    refine ⟨base, ?_, rfl⟩
    rw [Pass.run, sortPass, if_neg (by simp)]
  | i + 1, fuel + 1, base, hfuel, hi => by
    have hsize' : (i + 1) * size = i * size + size := by ring
    have hnext : ((((i + 1) * size : ℕ) : ℤ) - size).bmod (2 ^ 32) = (i * size : ℕ) := by
      rw [bmod_of_small (by omega) (by omega)]
      omega
    have hsift := siftBytes_elements cmpFunc hsize hswap (n := i + 1) 0
      (swapFunc base 0 ((i + 1) * size) size)
    have hswap0 := hswap base 0 (i + 1) (by omega)
    rw [Nat.zero_mul] at hsift hswap0
    rw [hswap0] at hsift
    obtain ⟨base', hrun, hel⟩ := sortPass_run hsize hswap i fuel
      (siftBytes cmpFunc swapFunc size ((i + 1) * size) 0 (swapFunc base 0 ((i + 1) * size) size))
      (by omega) (by omega)
    rw [hsift] at hel
    refine ⟨base', ?_, hel⟩
    rw [Pass.run, sortPass, if_pos (by omega), Int.toNat_natCast, hnext]
    exact hrun

end

/-- `sort` returns and leaves the elements of the array in order. -/
theorem sort_sorts (base : Bytes) (num size : ℕ) (cmpFunc : List UInt8 → List UInt8 → ℤ)
    (swapFunc : Option (Bytes → ℕ → ℕ → ℕ → Bytes)) (hcmp : TotalPreorder cmpFunc)
    (hsize : 0 < size) (hsmall : size < 2 ^ 31) (hn : num * size < 2 ^ 31)
    (hswap : ∀ f ∈ swapFunc, Exchanges f size) (fuel : ℕ) (hfuel : num < fuel) :
    ∃ base', sort fuel base num size cmpFunc swapFunc = some base' ∧
      ((List.range num).map (elements size base')).Perm
        ((List.range num).map (elements size base)) ∧
      ∀ i j, i ≤ j → j < num → cmpFunc (elements size base' i) (elements size base' j) ≤ 0 := by
  have hex : Exchanges (swapFunc.getD (if size = 4 then u32Swap else genericSwap)) size := by
    cases swapFunc with
    | none => exact exchanges_default hsize
    | some f => exact hswap f rfl
  have hhalf : num / 2 * size ≤ num * size := Nat.mul_le_mul_right _ (Nat.div_le_self _ _)
  have hbound : (((num / 2 : ℕ) : ℤ) - 1) * size = (num / 2 * size : ℕ) - size := by push_cast; ring
  obtain ⟨base₁, hrun₁, hel₁⟩ := heapifyPass_run cmpFunc hsize hsmall hex (n := num) (num / 2)
    fuel base (by omega) (by omega)
  have hlast : ∃ base', Pass.run (sortPass cmpFunc
      (swapFunc.getD (if size = 4 then u32Swap else genericSwap)) size) fuel
      (((num * size : ℕ) - size : ℤ).bmod (2 ^ 32), base₁) = some base' ∧ elements size base'
      = sortDown (fun a b => decide (cmpFunc a b < 0)) (num - 1) (elements size base₁) := by
    rw [bmod_of_small (by omega) (by omega)]
    cases num with
    | zero =>
      obtain ⟨fuel, rfl⟩ := Nat.exists_eq_succ_of_ne_zero hfuel.ne'
      refine ⟨base₁, ?_, rfl⟩
      rw [Pass.run, sortPass, if_neg (by simp)]
    | succ num =>
      rw [show (((num + 1) * size : ℕ) : ℤ) - size = (num * size : ℕ) by push_cast; ring]
      exact sortPass_run cmpFunc hsize hex num fuel base₁ (by omega) (by nlinarith)
  obtain ⟨base₂, hrun₂, hel₂⟩ := hlast
  obtain ⟨β, _, key, hkey⟩ := hcmp.exists_key
  have hkeyed : Keyed (fun a b => decide (cmpFunc a b < 0)) key num (elements size base) :=
    fun i _ j _ => decide_eq_true_iff.trans (hkey _ _)
  obtain ⟨hre, hsorted⟩ := heapSort_spec hkeyed
  rw [hel₁] at hel₂
  rw [heapSort, ← hel₂] at hre hsorted
  refine ⟨base₂, ?_, hre.perm, fun i j hij hj => ?_⟩
  · unfold sort
    simp only
    rw [bmod_of_small (by omega) (by omega), hrun₁, Option.bind_some]
    exact hrun₂
  · rw [← not_lt, ← hcmp.sign, hkey]
    exact not_lt.mpr (hsorted i j hij hj)

theorem sort_sorts_three :
    ∃ base', sort 4 (fun i => UInt8.ofNat (9 - i)) 3 1
        (fun a b => (a.headD 0).toNat - (b.headD 0).toNat) none = some base' ∧
      ((List.range 3).map (elements 1 base')).Perm
        ((List.range 3).map (elements 1 fun i => UInt8.ofNat (9 - i))) ∧
      ∀ i j, i ≤ j → j < 3 → ((elements 1 base' i).headD 0).toNat
        - ((elements 1 base' j).headD 0).toNat ≤ (0 : ℤ) :=
  sort_sorts _ 3 1 _ none ⟨fun _ _ => by omega, fun _ _ _ _ _ => by omega⟩ (by norm_num)
    (by norm_num) (by norm_num) (by simp) 4 (by norm_num)

/-- With elements of no bytes the first loop does not end. -/
theorem sort_no_bytes : TotalPreorder (fun _ _ : List UInt8 => (0 : ℤ)) ∧
    ∀ fuel base num, sort fuel base num 0 (fun _ _ => 0) none = none := by
  have hloop : ∀ fuel base,
      Pass.run (heapifyPass (fun _ _ => 0) genericSwap 0 0) fuel (0, base) = none := by
    intro fuel
    induction fuel with
    | zero => exact fun _ => rfl
    | succ fuel ih => exact fun base => ih _
  exact ⟨⟨by simp, by simp⟩, fun fuel base num => by simp [sort, hloop]⟩

end LinuxKernel.Lib
