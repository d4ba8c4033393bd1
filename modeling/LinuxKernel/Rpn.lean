import Mathlib.Algebra.BigOperators.Group.List.Basic
import Mathlib.Algebra.Order.Ring.Int
import Mathlib.Tactic.NormNum

/-!
# Reverse Polish notation

Operators and operands in a list, run on a stack that holds at most `max` values. Running the code of
a tree puts its value on the stack if the stack has room for as many values as the tree needs. What
runs to its end is the code of one tree for each value left on the stack.
-/

namespace LinuxKernel.Rpn

variable {α υ ω β : Type*}

/-- An element of the list; a `bad` one stops the run. -/
inductive Token (α υ ω : Type*) where
  | leaf (a : α)
  | unary (u : υ)
  | binary (o : ω)
  | bad

inductive Tree (α υ ω : Type*) where
  | leaf (a : α)
  | unary (u : υ) (t : Tree α υ ω)
  | binary (o : ω) (left right : Tree α υ ω)

/-- What the leaves and the operators stand for. -/
structure Interp (α υ ω β : Type*) where
  leaf : α → β
  unary : υ → β → β
  binary : ω → β → β → β

def Tree.code : Tree α υ ω → List (Token α υ ω)
  | .leaf a => [.leaf a]
  | .unary u t => t.code ++ [.unary u]
  | .binary o left right => left.code ++ (right.code ++ [.binary o])

def Tree.eval (I : Interp α υ ω β) : Tree α υ ω → β
  | .leaf a => I.leaf a
  | .unary u t => I.unary u (t.eval I)
  | .binary o left right => I.binary o (left.eval I) (right.eval I)

/-- The entries of the stack that the tree needs. -/
def Tree.depth : Tree α υ ω → ℕ
  | .leaf _ => 1
  | .unary _ t => t.depth
  | .binary _ left right => max left.depth (right.depth + 1)

/-- The top of the stack is the head of the list. -/
def step (I : Interp α υ ω β) (max : ℕ) : List β → Token α υ ω → Option (List β)
  | l, .leaf a => if l.length < max then some (I.leaf a :: l) else none
  | x :: l, .unary u => some (I.unary u x :: l)
  | y :: x :: l, .binary o => some (I.binary o x y :: l)
  | _, _ => none

def run (I : Interp α υ ω β) (max : ℕ) : List β → List (Token α υ ω) → Option (List β)
  | l, [] => some l
  | l, t :: ts => (step I max l t).bind fun l => run I max l ts

def Token.net : Token α υ ω → ℤ
  | .leaf _ => 1
  | .binary _ => -1
  | _ => 0

lemma net_code : ∀ t : Tree α υ ω, (t.code.map Token.net).sum = 1
  | .leaf _ => rfl
  | .unary u t => by simp [Tree.code, net_code t, Token.net]
  | .binary o left right => by simp [Tree.code, net_code left, net_code right, Token.net]

lemma net_flatMap : ∀ trees : List (Tree α υ ω),
    ((trees.flatMap Tree.code).map Token.net).sum = trees.length
  | [] => rfl
  | t :: trees => by
    rw [List.flatMap_cons, List.map_append, List.sum_append, net_code, net_flatMap trees,
      List.length_cons]
    push_cast
    omega

variable {I : Interp α υ ω β} {max : ℕ}

lemma run_append : ∀ (ts ts' : List (Token α υ ω)) (l : List β),
    run I max l (ts ++ ts') = (run I max l ts).bind fun l => run I max l ts'
  | [], _, _ => rfl
  | t :: ts, ts', l => by
    rw [List.cons_append, run, run]
    cases step I max l t with
    | none => rfl
    | some l' => exact run_append ts ts' l'

lemma run_code : ∀ (t : Tree α υ ω) (l : List β),
    run I max l t.code = if l.length + t.depth ≤ max then some (t.eval I :: l) else none
  | .leaf a, l => by
    rw [Tree.code, run, step, Tree.depth]
    split_ifs with h1 h2 h2
    · rfl
    · omega
    · omega
    · rfl
  | .unary u t, l => by
    rw [Tree.code, run_append, run_code t l, Tree.depth]
    split_ifs with h
    · rfl
    · rfl
  | .binary o left right, l => by
    rw [Tree.code, run_append, run_code left l, Tree.depth]
    by_cases hl : l.length + left.depth ≤ max
    · rw [if_pos hl, Option.bind_some, run_append, run_code right, List.length_cons]
      by_cases hr : l.length + 1 + right.depth ≤ max
      · rw [if_pos hr, if_pos (by omega)]
        rfl
      · rw [if_neg hr, if_neg (by omega)]
        rfl
    · rw [if_neg hl, if_neg (by omega)]
      rfl

structure Built (I : Interp α υ ω β) (ts : List (Token α υ ω)) (trees : List (Tree α υ ω))
    (l : List β) : Prop where
  code_eq : trees.reverse.flatMap Tree.code = ts
  values_eq : trees.map (Tree.eval I) = l

lemma Built.step {ts : List (Token α υ ω)} {trees : List (Tree α υ ω)} {l l' : List β}
    {t : Token α υ ω} (h : Built I ts trees l) (hs : step I max l t = some l') :
    ∃ trees', Built I (ts ++ [t]) trees' l' := by
  obtain ⟨rfl, rfl⟩ := h
  cases t with
  | leaf a =>
    rw [Rpn.step] at hs
    split_ifs at hs
    cases hs
    exact ⟨.leaf a :: trees, by simp [Tree.code], rfl⟩
  | unary u =>
    cases trees with
    | nil => cases hs
    | cons x trees =>
      cases hs
      exact ⟨.unary u x :: trees, by simp [Tree.code], rfl⟩
  | binary o =>
    cases trees with
    | nil => cases hs
    | cons y trees =>
      cases trees with
      | nil => cases hs
      | cons x trees =>
        cases hs
        exact ⟨.binary o x y :: trees, by simp [Tree.code], rfl⟩
  | bad =>
    rw [Rpn.step] at hs
    · cases hs
    all_goals simp

lemma exists_built : ∀ (ts done : List (Token α υ ω)) {trees : List (Tree α υ ω)} {l l' : List β},
    Built I done trees l → run I max l ts = some l' → ∃ trees', Built I (done ++ ts) trees' l'
  | [], done, trees, l, l', h, hr => by
    cases hr
    rw [List.append_nil]
    exact ⟨trees, h⟩
  | t :: ts, done, trees, l, l', h, hr => by
    obtain ⟨l₁, hs, hr⟩ := Option.bind_eq_some_iff.mp hr
    obtain ⟨trees₁, h₁⟩ := h.step hs
    obtain ⟨trees', h'⟩ := exists_built ts (done ++ [t]) h₁ hr
    exact ⟨trees', by rwa [List.append_assoc, List.singleton_append] at h'⟩

/-- Unless the list is the code of no tree or of several, it runs to its end only if it is the code
of a tree that fits. -/
lemma run_eq_none {ts : List (Token α υ ω)} (hone : ∀ trees : List (Tree α υ ω),
    trees.length ≠ 1 → ts ≠ trees.flatMap Tree.code)
    (hfit : ∀ t : Tree α υ ω, t.depth ≤ max → ts ≠ t.code) : run I max [] ts = none := by
  cases hr : run I max [] ts with
  | none => rfl
  | some l =>
    have hnil : Built I [] [] [] := ⟨rfl, rfl⟩
    obtain ⟨trees, hcode, hval⟩ := exists_built ts [] hnil hr
    rw [List.nil_append] at hcode
    by_cases hlen : trees.length = 1
    · obtain ⟨t, rfl⟩ := List.length_eq_one_iff.mp hlen
      have hts : ts = t.code := by simpa using hcode.symm
      rw [hts, run_code] at hr
      split_ifs at hr with hd
      exact absurd hts (hfit t (by simpa using hd))
    · exact absurd hcode.symm (hone trees.reverse (by simpa using hlen))

end LinuxKernel.Rpn
