import Mathlib.Data.List.Chain
import Mathlib.Data.List.Count
import Mathlib.Data.List.Perm.Basic

/-!
# Bubble sort

Passes over a list are made while one of them swaps: a pass compares each element with the one
before it, as it stands by then. A pass that swaps lowers the number of inversions, so the passes
come to an end, and a pass that does not leaves a list without inversions.
-/

namespace BubbleSort

variable {α : Type*} (swap : α → α → Bool)

/-- A pass from the second element on, where `last` stands before the list. The flag tells whether
elements were swapped. -/
def pass (last : α) : List α → List α × Bool
  | [] => ([last], false)
  | cur :: l =>
    if swap cur last then (cur :: (pass last l).1, true)
    else (last :: (pass cur l).1, (pass cur l).2)

/-- The number of pairs that stand in the wrong order. -/
def inversions : List α → ℕ
  | [] => 0
  | a :: l => l.countP (swap · a) + inversions l

section

variable {swap}

lemma pass_perm : ∀ (last : α) (l : List α), (pass swap last l).1.Perm (last :: l)
  | last, [] => List.Perm.refl _
  | last, cur :: l => by
    rw [pass]
    split
    · exact ((pass_perm last l).cons cur).trans (List.Perm.swap last cur l)
    · exact (pass_perm cur l).cons last

lemma inversions_pass_le (hasymm : ∀ a b, swap a b = true → swap b a = false) :
    ∀ (last : α) (l : List α), inversions swap (pass swap last l).1 ≤ inversions swap (last :: l) ∧
        ((pass swap last l).2 = true →
          inversions swap (pass swap last l).1 < inversions swap (last :: l))
  | last, [] => ⟨Nat.le_refl _, by simp [pass]⟩
  | last, cur :: l => by
    rw [pass]
    split
    · next h =>
      have ih := (inversions_pass_le hasymm last l).1
      have hperm : (pass swap last l).1.Perm (last :: l) := pass_perm last l
      have hcount := hperm.countP_eq (swap · cur)
      rw [List.countP_cons_of_neg (by simp [hasymm cur last h])] at hcount
      have hlast : (cur :: l).countP (swap · last) = l.countP (swap · last) + 1 :=
        List.countP_cons_of_pos h
      simp only [inversions] at ih ⊢
      omega
    · obtain ⟨ih, ihlt⟩ := inversions_pass_le hasymm cur l
      have hperm : (pass swap cur l).1.Perm (cur :: l) := pass_perm cur l
      have hcount := hperm.countP_eq (swap · last)
      simp only [inversions] at ih ihlt ⊢
      refine ⟨by omega, fun hflag => ?_⟩
      have := ihlt hflag
      omega

lemma isChain_of_pass : ∀ {last : α} {l : List α}, (pass swap last l).2 = false →
    (pass swap last l).1 = last :: l ∧ (last :: l).IsChain (fun a b => swap b a = false)
  | last, [], _ => ⟨rfl, List.isChain_singleton last⟩
  | last, cur :: l, h => by
    rw [pass] at h ⊢
    split at h
    · cases h
    · next hswap =>
      obtain ⟨heq, hchain⟩ := isChain_of_pass h
      rw [if_neg hswap, heq]
      exact ⟨rfl, List.isChain_cons_cons.mpr ⟨Bool.eq_false_iff.mpr hswap, hchain⟩⟩

end

section

/-- Passes are made until one does not swap. -/
def sort (hasymm : ∀ a b, swap a b = true → swap b a = false) : List α → List α
  | [] => []
  | a :: l =>
    if _h : (pass swap a l).2 = true then sort hasymm (pass swap a l).1 else (pass swap a l).1
termination_by l => inversions swap l
decreasing_by exact (inversions_pass_le hasymm a l).2 _h

variable {swap} (hasymm : ∀ a b, swap a b = true → swap b a = false)

lemma sort_perm : ∀ l : List α, (sort swap hasymm l).Perm l := fun l => by
  induction l using sort.induct swap hasymm with
  | case1 => rw [sort]
  | case2 a l h ih =>
    rw [sort, dif_pos h]
    exact ih.trans (pass_perm a l)
  | case3 a l h =>
    rw [sort, dif_neg h]
    exact pass_perm a l

lemma sort_isChain : ∀ l : List α, (sort swap hasymm l).IsChain (fun a b => swap b a = false) :=
  fun l => by
  induction l using sort.induct swap hasymm with
  | case1 =>
    rw [sort]
    exact List.isChain_nil
  | case2 a l h ih => rwa [sort, dif_pos h]
  | case3 a l h =>
    obtain ⟨heq, hchain⟩ := isChain_of_pass (Bool.eq_false_iff.mpr h)
    rw [sort, dif_neg h, heq]
    exact hchain

end

end BubbleSort
