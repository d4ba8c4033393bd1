import Mathlib

/-!
# Arrays that hold a list

The first entries of an array `ℕ → α` are a list; assignments and `memmove` on the array are edits
of the list. A list of signed sizes tiles an interval: each entry is a block, free when it is
positive, that starts where the blocks before it end.
-/

namespace LinuxKernel

open List

section

variable {α : Type*}

def memmove (a : ℕ → α) (dst src n : ℕ) : ℕ → α :=
  fun j => if dst ≤ j ∧ j < dst + n then a (src + (j - dst)) else a j

/-- The array starts with the list. -/
def Seg (a : ℕ → α) (l : List α) : Prop := ∀ i x, l[i]? = some x → a i = x

variable {a : ℕ → α} {pre post : List α} {x : α}

variable {dst n : ℕ}

lemma range_map_eq_iff {l : List α} :
    (range n).map a = l ↔ n = l.length ∧ Seg a l := by
  constructor
  · rintro rfl
    refine ⟨by simp, fun i x hi => ?_⟩
    simp only [List.getElem?_map, Option.map_eq_some_iff] at hi
    obtain ⟨j, hj, rfl⟩ := hi
    obtain ⟨hlt, rfl⟩ := List.getElem?_eq_some_iff.mp hj
    rw [getElem_range]
  · rintro ⟨rfl, h⟩
    refine ext_getElem (by simp) fun i h1 h2 => ?_
    rw [getElem_map, getElem_range]
    exact h i _ (List.getElem?_eq_getElem h2)

lemma Seg.middle (h : Seg a (pre ++ x :: post)) (hn : n = pre.length) : a n = x :=
  h _ _ (by simp [hn])

lemma Seg.update (h : Seg a (pre ++ x :: post)) (hn : n = pre.length) (y : α) :
    Seg (Function.update a n y) (pre ++ y :: post) := by
  subst hn
  intro i z hi
  by_cases hp : i = pre.length
  · subst hp
    simpa using hi
  rw [Function.update_of_ne hp]
  refine h i z ?_
  rcases Nat.lt_or_gt_of_ne hp with hlt | hgt
  · rw [List.getElem?_append_left hlt] at hi ⊢
    exact hi
  · obtain ⟨j, hj⟩ := Nat.exists_eq_add_of_lt hgt
    rw [hj, add_assoc, List.getElem?_append_right (by omega)] at hi ⊢
    simpa using hi

lemma Seg.insert (h : Seg a (pre ++ post)) {gap : List α}
    (hgap : Seg (fun j => a (pre.length + j)) gap) (hdst : dst = pre.length + gap.length)
    (hn : n = post.length) : Seg (memmove a dst pre.length n) (pre ++ (gap ++ post)) := by
  subst hdst hn
  intro i z hi
  unfold memmove
  by_cases h1 : i < pre.length
  · rw [if_neg (by omega)]
    rw [List.getElem?_append_left h1] at hi
    exact h i z (by rw [List.getElem?_append_left h1]; exact hi)
  obtain ⟨j, rfl⟩ := Nat.exists_eq_add_of_le (Nat.le_of_not_lt h1)
  rw [List.getElem?_append_right (by omega), Nat.add_sub_cancel_left] at hi
  by_cases h2 : j < gap.length
  · rw [if_neg (by omega)]
    rw [List.getElem?_append_left h2] at hi
    exact hgap j z hi
  obtain ⟨k, rfl⟩ := Nat.exists_eq_add_of_le (Nat.le_of_not_lt h2)
  rw [List.getElem?_append_right (by omega), Nat.add_sub_cancel_left] at hi
  have hk := (List.getElem?_eq_some_iff.mp hi).1
  rw [if_pos (by omega), show pre.length + (gap.length + k) - (pre.length + gap.length) = k by omega]
  exact h _ z (by rw [List.getElem?_append_right (by omega), Nat.add_sub_cancel_left]; exact hi)

lemma Seg.erase (h : Seg a (pre ++ x :: post)) (hdst : dst = pre.length)
    (hn : n = post.length) : Seg (memmove a dst (dst + 1) n) (pre ++ post) := by
  subst hdst hn
  intro i z hi
  unfold memmove
  by_cases h1 : i < pre.length
  · rw [if_neg (by omega)]
    rw [List.getElem?_append_left h1] at hi
    exact h i z (by rw [List.getElem?_append_left h1]; exact hi)
  obtain ⟨k, rfl⟩ := Nat.exists_eq_add_of_le (Nat.le_of_not_lt h1)
  rw [List.getElem?_append_right (by omega), Nat.add_sub_cancel_left] at hi
  have hk := (List.getElem?_eq_some_iff.mp hi).1
  rw [if_pos (by omega), Nat.add_sub_cancel_left]
  refine h _ z ?_
  rw [List.getElem?_append_right (by omega), show pre.length + 1 + k - pre.length = k + 1 by omega,
    List.getElem?_cons_succ]
  exact hi

end

section

def absSum (l : List ℤ) : ℤ := (l.map fun x => |x|).sum

/-- The length of its free blocks. -/
def freeSum (l : List ℤ) : ℤ := (l.map fun x => max x 0).sum

/-- The blocks of a tiling that starts at `off`. -/
def blocks : ℤ → List ℤ → List (ℤ × ℤ)
  | _, [] => []
  | off, x :: l => (off, x) :: blocks (off + |x|) l

/-- No two neighbours are free. -/
def Apart (l : List ℤ) : Prop := l.IsChain fun a b => 0 < a → b ≤ 0

variable {l l' : List ℤ} {x : ℤ}

@[simp] lemma absSum_nil : absSum [] = 0 := rfl

@[simp] lemma absSum_cons : absSum (x :: l) = |x| + absSum l := by simp [absSum]

@[simp] lemma absSum_append : absSum (l ++ l') = absSum l + absSum l' := by simp [absSum]

@[simp] lemma freeSum_nil : freeSum [] = 0 := rfl

@[simp] lemma freeSum_cons : freeSum (x :: l) = max x 0 + freeSum l := by simp [freeSum]

@[simp] lemma freeSum_append : freeSum (l ++ l') = freeSum l + freeSum l' := by simp [freeSum]

lemma absSum_nonneg : ∀ l : List ℤ, 0 ≤ absSum l
  | [] => le_rfl
  | x :: l => by
    rw [absSum_cons]
    exact add_nonneg (abs_nonneg x) (absSum_nonneg l)

lemma freeSum_nonneg : ∀ l : List ℤ, 0 ≤ freeSum l
  | [] => le_rfl
  | x :: l => by
    rw [freeSum_cons]
    exact add_nonneg (le_max_right x 0) (freeSum_nonneg l)

lemma freeSum_le_absSum : ∀ l : List ℤ, freeSum l ≤ absSum l
  | [] => le_rfl
  | x :: l => by
    rw [freeSum_cons, absSum_cons]
    exact add_le_add (max_le (le_abs_self x) (abs_nonneg x)) (freeSum_le_absSum l)

lemma blocks_append (off : ℤ) : ∀ (l l' : List ℤ),
    blocks off (l ++ l') = blocks off l ++ blocks (off + absSum l) l'
  | [], l' => by simp [blocks]
  | x :: l, l' => by
    rw [cons_append, blocks, blocks_append, blocks, absSum_cons, ← add_assoc, cons_append]

lemma blocks_bounds : ∀ {off : ℤ} {l : List ℤ} {p : ℤ × ℤ}, p ∈ blocks off l →
    off ≤ p.1 ∧ p.1 + |p.2| ≤ off + absSum l
  | off, x :: l, p, h => by
    have hx := abs_nonneg x
    have hl := absSum_nonneg l
    rw [absSum_cons]
    rcases mem_cons.mp h with rfl | h
    · constructor <;> simp only <;> omega
    · have := blocks_bounds h
      omega

lemma mem_blocks_iff {p : ℤ × ℤ} : ∀ {off : ℤ} {l : List ℤ}, p ∈ blocks off l ↔
    ∃ pre post, l = pre ++ p.2 :: post ∧ p.1 = off + absSum pre
  | off, [] => by simp [blocks]
  | off, x :: l => by
    rw [blocks, mem_cons, mem_blocks_iff]
    constructor
    · rintro (rfl | ⟨pre, post, rfl, hp⟩)
      · exact ⟨[], l, rfl, by simp⟩
      · exact ⟨x :: pre, post, rfl, by rw [hp, absSum_cons, add_assoc]⟩
    rintro ⟨pre, post, hl, hp⟩
    cases pre with
    | nil =>
      obtain ⟨rfl, rfl⟩ := List.cons.inj hl
      exact .inl (Prod.ext (by simpa using hp) rfl)
    | cons y pre =>
      obtain ⟨rfl, rfl⟩ := List.cons.inj hl
      exact .inr ⟨pre, post, rfl, by rw [hp, absSum_cons, add_assoc]⟩

lemma blocks_disjoint : ∀ {off : ℤ} {l : List ℤ} {p q : ℤ × ℤ}, p ∈ blocks off l →
    q ∈ blocks off l → p.1 ≠ q.1 → p.1 + |p.2| ≤ q.1 ∨ q.1 + |q.2| ≤ p.1
  | off, x :: l, p, q, hp, hq, hne => by
    rcases mem_cons.mp hp with rfl | hp
    · rcases mem_cons.mp hq with rfl | hq
      · exact absurd rfl hne
      · exact .inl (blocks_bounds hq).1
    · rcases mem_cons.mp hq with rfl | hq
      · exact .inr (blocks_bounds hp).1
      · exact blocks_disjoint hp hq hne

lemma blocks_unique : ∀ {off : ℤ} {l : List ℤ} {p q : ℤ × ℤ}, (∀ x ∈ l, x ≠ 0) →
    p ∈ blocks off l → q ∈ blocks off l → p.1 = q.1 → p = q
  | off, x :: l, p, q, hnz, hp, hq, he => by
    have hx := abs_pos.mpr (hnz x mem_cons_self)
    rcases mem_cons.mp hp with rfl | hp
    · rcases mem_cons.mp hq with rfl | hq
      · rfl
      · have := (blocks_bounds hq).1
        simp only at he
        omega
    · rcases mem_cons.mp hq with rfl | hq
      · have := (blocks_bounds hp).1
        simp only at he
        omega
      · exact blocks_unique (fun z hz => hnz z (mem_cons_of_mem _ hz)) hp hq he

variable {pre post : List ℤ}

lemma apart_append : Apart (l ++ l') ↔
    Apart l ∧ Apart l' ∧ ∀ x ∈ l.getLast?, ∀ y ∈ l'.head?, 0 < x → y ≤ 0 :=
  isChain_append

lemma apart_cons : Apart (x :: l) ↔ (∀ y ∈ l.head?, 0 < x → y ≤ 0) ∧ Apart l := isChain_cons

lemma Apart.around (h : Apart (pre ++ x :: post)) (hx : 0 < x) :
    (Apart pre ∧ ∀ y ∈ pre.getLast?, y ≤ 0) ∧ Apart post ∧ ∀ y ∈ post.head?, y ≤ 0 := by
  obtain ⟨h1, h2, h3⟩ := apart_append.mp h
  obtain ⟨h4, h5⟩ := apart_cons.mp h2
  refine ⟨⟨h1, fun y hy => ?_⟩, h5, fun y hy => h4 y hy hx⟩
  by_contra hlt
  have := h3 y hy x rfl (by omega)
  omega

end

end LinuxKernel
