import LinuxKernel.PrioTree

/-!
# The order of a priority search tree

The heap index of a node is not smaller than those below it. At every level one bit, of the radix
index and further down of the size, sends a node to the left or to the right.
-/

namespace LinuxKernel.PrioTree

open List

variable {W j : ℕ} {f : Bool} {x y z : Interval} {l r t : Tree}

/-- The number whose bits count: the size where `f` is set, and otherwise the radix index. -/
def Interval.index (f : Bool) (x : Interval) : ℕ := if f then x.last - x.start else x.start

def side (j : ℕ) (f : Bool) (x : Interval) : Bool := (x.index f).testBit j

def Near (j : ℕ) (f : Bool) (x y : Interval) : Prop :=
  x.index f / 2 ^ (j + 1) = y.index f / 2 ^ (j + 1) ∧ (f = true → x.start = y.start)

/-- The bit of the level below. -/
def nextBit (W j : ℕ) (f : Bool) : ℕ × Bool := if j = 0 then (W - 1, true) else (j - 1, f)

lemma goesRight_eq_side (x : Interval) : goesRight (2 ^ j) f x = side j f x := by
  unfold goesRight side Interval.index
  rw [Nat.and_two_pow]
  cases Nat.testBit (if f = true then x.last - x.start else x.start) j <;> simp

lemma nextMask_eq : nextMask W (2 ^ j) f = (2 ^ (nextBit W j f).1, (nextBit W j f).2) := by
  unfold nextMask nextBit
  cases j with
  | zero => simp
  | succ j =>
    have hdiv : 2 ^ (j + 1) / 2 = 2 ^ j := by rw [pow_succ]; omega
    simp [hdiv]

lemma Near.symm (h : Near j f x y) : Near j f y x := ⟨h.1.symm, fun hf => (h.2 hf).symm⟩

lemma Near.trans (h : Near j f x y) (h' : Near j f y z) : Near j f x z :=
  ⟨h.1.trans h'.1, fun hf => (h.2 hf).trans (h'.2 hf)⟩

lemma side_eq_mod (x : Interval) : side j f x = decide (x.index f / 2 ^ j % 2 = 1) := by
  rw [side, Nat.testBit_eq_decide_div_mod_eq]

lemma index_div_eq (h : Near j f x y) (hs : side j f x = side j f y) :
    x.index f / 2 ^ j = y.index f / 2 ^ j := by
  rw [side_eq_mod, side_eq_mod, decide_eq_decide] at hs
  have h1 := h.1
  rw [pow_succ, ← Nat.div_div_eq_div_mul, ← Nat.div_div_eq_div_mul] at h1
  omega

lemma Near.next (hx : x.last < 2 ^ W) (hy : y.last < 2 ^ W) (hW : 0 < W)
    (h : Near j f x y) (hs : side j f x = side j f y) :
    Near (nextBit W j f).1 (nextBit W j f).2 x y := by
  have hdiv := index_div_eq h hs
  unfold nextBit
  cases j with
  | succ j => simpa [Near] using ⟨hdiv, h.2⟩
  | zero =>
    have hstart : x.start = y.start := by
      cases f with
      | true => exact h.2 rfl
      | false => simpa [Interval.index] using hdiv
    have hpow : W - 1 + 1 = W := by omega
    simp only [if_pos, Near, hpow]
    refine ⟨?_, fun _ => hstart⟩
    rw [Nat.div_eq_of_lt, Nat.div_eq_of_lt] <;> simp only [Interval.index, if_pos] <;> omega

lemma start_le_of_sides (h : Near j f x y) (hx : side j f x = false)
    (hy : side j f y = true) : x.start ≤ y.start := by
  cases f with
  | true => exact (h.2 rfl).le
  | false =>
    rw [side_eq_mod, decide_eq_false_iff_not] at hx
    rw [side_eq_mod, decide_eq_true_iff] at hy
    have h1 := h.1
    rw [pow_succ, ← Nat.div_div_eq_div_mul, ← Nat.div_div_eq_div_mul] at h1
    by_contra hcon
    have hle : y.index false / 2 ^ j ≤ x.index false / 2 ^ j :=
      Nat.div_le_div_right (by simp only [Interval.index]; simp; omega)
    omega

lemma near_of_lt (hx : x.last < 2 ^ (j + 1)) (hy : y.last < 2 ^ (j + 1)) :
    Near j false x y := by
  have h1 := x.le
  have h2 := y.le
  refine ⟨?_, fun h => absurd h (by decide)⟩
  rw [Nat.div_eq_of_lt, Nat.div_eq_of_lt] <;> simp only [Interval.index] <;> simp <;> omega

lemma side_eq_false_of_lt (hx : x.last < 2 ^ j) : side j false x = false := by
  have h1 := x.le
  exact Nat.testBit_eq_false_of_lt (by simp only [Interval.index]; simp; omega)

/-- `x` may stand above `y`. -/
def Above (x y : Interval) : Prop := y.last < x.last ∨ y.last = x.last ∧ x.start ≤ y.start

lemma Above.trans (h : Above x y) (h' : Above y z) : Above x z := by
  unfold Above at *
  omega

lemma Above.last_le (h : Above x y) : y.last ≤ x.last := by
  unfold Above at h
  omega

def Ordered (W : ℕ) : ℕ → Bool → Tree → Prop
  | _, _, .nil => True
  | j, f, .node l y r =>
    (∀ x ∈ l.toList, side j f x = false ∧ Near j f y x ∧ Above y x) ∧
    (∀ x ∈ r.toList, side j f x = true ∧ Near j f y x ∧ Above y x) ∧
    Ordered W (nextBit W j f).1 (nextBit W j f).2 l ∧
    Ordered W (nextBit W j f).1 (nextBit W j f).2 r

lemma Ordered.above (h : Ordered W j f (.node l y r)) :
    ∀ x ∈ l.toList ++ r.toList, Above y x := fun x hx => by
  rcases mem_append.mp hx with hx | hx
  · exact (h.1 x hx).2.2
  · exact (h.2.1 x hx).2.2

lemma Ordered.last_le (h : Ordered W j f (.node l y r)) :
    ∀ x ∈ (Tree.node l y r).toList, x.last ≤ y.last := fun x hx => by
  rcases mem_cons.mp hx with rfl | hx
  · exact le_rfl
  · exact (h.above x hx).last_le

lemma nodup_node (h : (Tree.node l y r).toList.Nodup) :
    y ∉ l.toList ∧ y ∉ r.toList ∧ l.toList.Nodup ∧ r.toList.Nodup ∧
      ∀ x ∈ l.toList, x ∉ r.toList := by
  rw [Tree.toList, nodup_cons, mem_append, nodup_append'] at h
  refine ⟨fun hy => h.1 (.inl hy), fun hy => h.1 (.inr hy), h.2.1, h.2.2.1, ?_⟩
  exact fun x hx hx' => h.2.2.2 hx hx'

lemma mem_top (l r : Tree) (y : Interval) : y ∈ (Tree.node l y r).toList := by simp [Tree.toList]

lemma eq_of_last_bit (hn : Near 0 true x y)
    (hs : side 0 true x = side 0 true y) :
    x = y := by
  have hsize := index_div_eq hn hs
  have hstart := hn.2 rfl
  have h1 := x.le
  have h2 := y.le
  simp only [Interval.index, if_true, pow_zero, Nat.div_one] at hsize
  cases x
  cases y
  simp only [Interval.mk.injEq] at *
  omega

lemma leaf_of_subsingleton : ∀ {c : Tree}, c ≠ .nil → c.toList.Nodup →
    (∀ x ∈ c.toList, ∀ y ∈ c.toList, x = y) → ∃ x, c = .node .nil x .nil
  | .nil, hne, _, _ => absurd rfl hne
  | .node .nil x .nil, _, _, _ => ⟨x, rfl⟩
  | .node (.node a y b) x t, _, hnd, hsub => by
    have hxy := hsub x (mem_top _ _ _) y (by simp [Tree.toList])
    exact absurd (hxy ▸ mem_top a b y) (nodup_node hnd).1
  | .node .nil x (.node a y b), _, hnd, hsub => by
    have hxy := hsub x (mem_top _ _ _) y (by simp [Tree.toList])
    exact absurd (hxy ▸ mem_top a b y) (nodup_node hnd).2.1

def insertTree (W : ℕ) : ℕ → Bool → Interval → Tree → Tree
  | _, _, x, .nil => .node .nil x .nil
  | mask, sizeFlag, x, .node l y r =>
    if y = x then .node l y r
    else
      let swap := y.last < x.last ∨ y.last = x.last ∧ y.start > x.start
      let top := if swap then x else y
      let next := if swap then y else x
      let m := nextMask W mask sizeFlag
      if goesRight mask sizeFlag next then .node l top (insertTree W m.1 m.2 next r)
      else .node (insertTree W m.1 m.2 next l) top r

lemma insertTree_node (l r : Tree) (hyx : y ≠ x) :
    ∃ top next, (top = x ∧ next = y ∧ ¬ Above y x ∨ top = y ∧ next = x) ∧ Above top next ∧
      insertTree W (2 ^ j) f x (.node l y r) = if side j f next then
          .node l top (insertTree W (2 ^ (nextBit W j f).1) (nextBit W j f).2 next r)
        else .node (insertTree W (2 ^ (nextBit W j f).1) (nextBit W j f).2 next l) top r := by
  rw [insertTree, if_neg hyx]
  simp only [goesRight_eq_side, nextMask_eq]
  by_cases hswap : y.last < x.last ∨ y.last = x.last ∧ y.start > x.start
  · refine ⟨x, y, .inl ⟨rfl, rfl, ?_⟩, ?_, by simp only [if_pos hswap]⟩ <;> unfold Above <;> omega
  · refine ⟨y, x, .inr ⟨rfl, rfl⟩, ?_, by simp only [if_neg hswap]⟩
    unfold Above
    omega

lemma insertTree_toList : ∀ {t : Tree} {j : ℕ} {f : Bool} {x : Interval},
    Ordered W j f t → t.toList.Nodup →
    (insertTree W (2 ^ j) f x t).toList.Perm (if x ∈ t.toList then t.toList else x :: t.toList)
  | .nil, j, f, x, _, _ => by simp [insertTree, Tree.toList]
  | .node l y r, j, f, x, ho, hnd => by
    obtain ⟨hyl, hyr, hndl, hndr, -⟩ := nodup_node hnd
    by_cases hyx : y = x
    · subst hyx
      simp [insertTree, Tree.toList]
    obtain ⟨top, next, hcase, -, heq⟩ := insertTree_node (W := W) (j := j) (f := f) l r hyx
    have hnode : x ∈ (Tree.node l y r).toList ↔ x ∈ l.toList ∨ x ∈ r.toList := by
      simp [Tree.toList, show x ≠ y from fun h => hyx h.symm]
    -- a new node on top is not among those below, nor is the one it pushes down
    have hbelow : x ∈ (Tree.node l y r).toList → top = y ∧ next = x := fun hx => by
      rcases hcase with ⟨-, -, hab⟩ | hcase
      · exact absurd (ho.above x (mem_append.mpr (hnode.mp hx))) hab
      · exact hcase
    have hother : x ∉ (Tree.node l y r).toList → next ∉ l.toList ∧ next ∉ r.toList := fun hx => by
      rcases hcase with ⟨-, rfl, -⟩ | ⟨-, rfl⟩
      · exact ⟨hyl, hyr⟩
      · rwa [hnode, not_or] at hx
    have hpair : ∀ rest : List Interval, (top :: next :: rest).Perm (x :: y :: rest) := fun rest => by
      rcases hcase with ⟨rfl, rfl, -⟩ | ⟨rfl, rfl⟩
      · exact .refl _
      · exact .swap ..
    rw [heq]
    split_ifs with hs hx hx
    · obtain ⟨rfl, rfl⟩ := hbelow hx
      have hxr := (hnode.mp hx).resolve_left fun hl => by simp [(ho.1 _ hl).1] at hs
      have h := insertTree_toList (x := next) ho.2.2.2 hndr
      rw [if_pos hxr] at h
      exact Perm.cons top (h.append_left l.toList)
    · have h := insertTree_toList (x := next) ho.2.2.2 hndr
      rw [if_neg (hother hx).2] at h
      exact (Perm.cons top ((h.append_left l.toList).trans perm_middle)).trans (hpair _)
    · obtain ⟨rfl, rfl⟩ := hbelow hx
      have hxl := (hnode.mp hx).resolve_right fun hr => hs (ho.2.1 _ hr).1
      have h := insertTree_toList (x := next) ho.2.2.1 hndl
      rw [if_pos hxl] at h
      exact Perm.cons top (h.append_right r.toList)
    · have h := insertTree_toList (x := next) ho.2.2.1 hndl
      rw [if_neg (hother hx).1] at h
      exact (Perm.cons top (h.append_right r.toList)).trans (hpair _)

lemma mem_insertTree (ho : Ordered W j f t) (hnd : t.toList.Nodup)
    (hz : z ∈ (insertTree W (2 ^ j) f x t).toList) : z = x ∨ z ∈ t.toList := by
  have h := (insertTree_toList (x := x) ho hnd).mem_iff.mp hz
  split_ifs at h with hx
  · exact .inr h
  · exact mem_cons.mp h

lemma insertTree_ordered (hW : 0 < W) : ∀ {t : Tree} {j : ℕ} {f : Bool} {x : Interval},
    Ordered W j f t → t.toList.Nodup → (∀ z ∈ t.toList, Near j f x z) → x.last < 2 ^ W →
    (∀ z ∈ t.toList, z.last < 2 ^ W) → Ordered W j f (insertTree W (2 ^ j) f x t)
  | .nil, j, f, x, _, _, _, _, _ => by simp [insertTree, Ordered, Tree.toList]
  | .node l y r, j, f, x, ho, hnd, hx, hxW, hW' => by
    obtain ⟨hyl, hyr, hndl, hndr, hlr⟩ := nodup_node hnd
    by_cases hyx : y = x
    · rw [insertTree, if_pos hyx]
      exact ho
    obtain ⟨top, next, hcase, hab, heq⟩ := insertTree_node (W := W) (j := j) (f := f) l r hyx
    have hself : Near j f y y := ⟨rfl, fun _ => rfl⟩
    have hyW : y.last < 2 ^ W := hW' y (by simp [Tree.toList])
    have hxy : Near j f x y := hx y (by simp [Tree.toList])
    have hWl : ∀ z ∈ l.toList, z.last < 2 ^ W := fun z hz => hW' z (by simp [Tree.toList, hz])
    have hWr : ∀ z ∈ r.toList, z.last < 2 ^ W := fun z hz => hW' z (by simp [Tree.toList, hz])
    obtain ⟨htn, hnn, hnW, htop⟩ : Near j f top y ∧ Near j f next y ∧ next.last < 2 ^ W ∧
        ∀ z, Above y z → Above top z := by
      rcases hcase with ⟨rfl, rfl, -⟩ | ⟨rfl, rfl⟩
      · exact ⟨hxy, hself, hyW, fun z hz => hab.trans hz⟩
      · exact ⟨hself, hxy, hxW, fun z hz => hz⟩
    rw [heq]
    split_ifs with hs
    · refine ⟨fun z hz => ⟨(ho.1 z hz).1, htn.trans (ho.1 z hz).2.1, htop z (ho.1 z hz).2.2⟩, fun z hz => ?_,
        ho.2.2.1, ?_⟩
      · rcases mem_insertTree ho.2.2.2 hndr hz with rfl | hz
        · exact ⟨hs, htn.trans hnn.symm, hab⟩
        · exact ⟨(ho.2.1 z hz).1, htn.trans (ho.2.1 z hz).2.1, htop z (ho.2.1 z hz).2.2⟩
      · refine insertTree_ordered hW ho.2.2.2 hndr (fun z hz => ?_) hnW hWr
        exact Near.next hnW (hWr z hz) hW (hnn.trans (ho.2.1 z hz).2.1)
          (hs.trans (ho.2.1 z hz).1.symm)
    · have hs' : side j f next = false := by simpa using hs
      refine ⟨fun z hz => ?_, fun z hz => ⟨(ho.2.1 z hz).1, htn.trans (ho.2.1 z hz).2.1, htop z (ho.2.1 z hz).2.2⟩,
        ?_, ho.2.2.2⟩
      · rcases mem_insertTree ho.2.2.1 hndl hz with rfl | hz
        · exact ⟨hs', htn.trans hnn.symm, hab⟩
        · exact ⟨(ho.1 z hz).1, htn.trans (ho.1 z hz).2.1, htop z (ho.1 z hz).2.2⟩
      · refine insertTree_ordered hW ho.2.2.1 hndl (fun z hz => ?_) hnW hWl
        exact Near.next hnW (hWl z hz) hW (hnn.trans (ho.1 z hz).2.1) (hs'.trans (ho.1 z hz).1.symm)

lemma insertLoop_eq : ∀ {t : Tree} {j : ℕ} {f : Bool} {x : Interval},
    Ordered W j f t → t.toList.Nodup → insertLoop W (2 ^ j) f x t =
      some (decide (x ∈ t.toList), insertTree W (2 ^ j) f x t)
  | .nil, j, f, x, _, _ => by simp [insertLoop, insertTree, Tree.toList]
  | .node l y r, j, f, x, ho, hnd => by
    obtain ⟨hyl, hyr, hndl, hndr, -⟩ := nodup_node hnd
    have hmask : 2 ^ j ≠ 0 := by positivity
    rw [insertLoop, insertTree, if_neg hmask]
    by_cases hyx : y = x
    · rw [if_pos hyx, if_pos hyx, hyx]
      simp [mem_top]
    rw [if_neg hyx, if_neg hyx]
    have hmem : x ∈ (Tree.node l y r).toList ↔ x ∈ l.toList ∨ x ∈ r.toList := by
      simp [Tree.toList, show x ≠ y from fun h => hyx h.symm]
    simp only [goesRight_eq_side, nextMask_eq, insertLoop_eq ho.2.2.1 hndl,
      insertLoop_eq ho.2.2.2 hndr, Option.map_some]
    by_cases hswap : y.last < x.last ∨ y.last = x.last ∧ y.start > x.start
    · have hx : ¬ (x ∈ l.toList ∨ x ∈ r.toList) := fun hx => by
        have := ho.above x (mem_append.mpr hx)
        unfold Above at this
        omega
      simp only [if_pos hswap, hyl, hyr, hmem, hx, decide_false]
      split_ifs <;> rfl
    · simp only [if_neg hswap, hmem]
      cases hs : side j f x with
      | true =>
        have hxl : x ∉ l.toList := fun hx => by simp [(ho.1 x hx).1] at hs
        simp [hxl]
      | false =>
        have hxr : x ∉ r.toList := fun hx => by simp [(ho.2.1 x hx).1] at hs
        simp [hxr]

lemma toList_removeTop : ∀ (l : Tree) (y : Interval) (r : Tree),
    (removeTop (.node l y r)).toList.Perm (l.toList ++ r.toList)
  | .nil, _, .nil => by simp [removeTop, Tree.toList]
  | .nil, _, .node l y r => by
    simp only [removeTop, Tree.toList, nil_append]
    exact Perm.cons y (toList_removeTop l y r)
  | .node l y r, _, .nil => by
    simp only [removeTop, Tree.toList, append_nil]
    exact Perm.cons y (toList_removeTop l y r)
  | .node l y r, _, .node l' y' r' => by
    simp only [removeTop]
    split_ifs
    · simp only [Tree.toList]
      exact Perm.cons y ((toList_removeTop l y r).append_right _)
    have h := toList_removeTop l' y' r'
    simp only [Tree.toList]
    calc (y' :: (y :: (l.toList ++ r.toList) ++ (removeTop (.node l' y' r')).toList)).Perm
          (y' :: (y :: (l.toList ++ r.toList) ++ (l'.toList ++ r'.toList))) :=
        Perm.cons y' (h.append_left _)
      _ |>.Perm (y :: (l.toList ++ r.toList) ++ y' :: (l'.toList ++ r'.toList)) :=
        perm_middle.symm
termination_by l _ r => l.size + r.size
decreasing_by all_goals simp only [Tree.size]; omega

lemma mem_removeTop (hz : z ∈ (removeTop (.node l y r)).toList) :
    z ∈ (Tree.node l y r).toList :=
  mem_cons_of_mem _ ((toList_removeTop l y r).mem_iff.mp hz)

lemma Ordered.above_rest (h : Ordered W j f (.node l y r))
    (hz : z ∈ (removeTop (.node l y r)).toList) : Above y z :=
  h.above z ((toList_removeTop l y r).mem_iff.mp hz)

lemma Above.of_sides (hz : Near j f z x) (hz' : Near j f z y)
    (hx : side j f x = false) (hy : side j f y = true) (hle : y.last ≤ x.last) : Above x y := by
  have hstart := start_le_of_sides (hz.symm.trans hz') hx hy
  unfold Above
  omega

lemma Ordered.pull_left
    (ho : Ordered W j f (.node (.node l y r) x t))
    (hrest : Ordered W (nextBit W j f).1 (nextBit W j f).2 (removeTop (.node l y r)))
    (habove : ∀ z ∈ t.toList, Above y z) :
    Ordered W j f (.node (removeTop (.node l y r)) y t) := by
  have hy := ho.1 y (mem_top l r y)
  refine ⟨fun z hz => ?_, fun z hz => ?_, hrest, ho.2.2.2⟩
  · have h := ho.1 z (mem_removeTop hz)
    exact ⟨h.1, hy.2.1.symm.trans h.2.1, ho.2.2.1.above_rest hz⟩
  · have h := ho.2.1 z hz
    exact ⟨h.1, hy.2.1.symm.trans h.2.1, habove z hz⟩

lemma Ordered.pull_right
    (ho : Ordered W j f (.node t x (.node l y r)))
    (hrest : Ordered W (nextBit W j f).1 (nextBit W j f).2 (removeTop (.node l y r)))
    (habove : ∀ z ∈ t.toList, Above y z) :
    Ordered W j f (.node t y (removeTop (.node l y r))) := by
  have hy := ho.2.1 y (mem_top l r y)
  refine ⟨fun z hz => ?_, fun z hz => ?_, ho.2.2.1, hrest⟩
  · have h := ho.1 z hz
    exact ⟨h.1, hy.2.1.symm.trans h.2.1, habove z hz⟩
  · have h := ho.2.1 z (mem_removeTop hz)
    exact ⟨h.1, hy.2.1.symm.trans h.2.1, ho.2.2.2.above_rest hz⟩

lemma Ordered.above_all (h : Ordered W j f (.node l y r))
    (hx : Above x y) : ∀ z ∈ (Tree.node l y r).toList, Above x z := fun z hz => by
  rcases mem_cons.mp hz with rfl | hz
  · exact hx
  · exact hx.trans (h.above z hz)

lemma removeTop_ordered : ∀ {l : Tree} {x : Interval} {t : Tree} {j : ℕ} {f : Bool},
    Ordered W j f (.node l x t) → Ordered W j f (removeTop (.node l x t))
  | .nil, _, .nil, _, _, _ => by simp [removeTop, Ordered]
  | .nil, _, .node l y r, _, _, ho => by
    rw [removeTop]
    exact ho.pull_right (removeTop_ordered ho.2.2.2) (by simp [Tree.toList])
  | .node l y r, _, .nil, _, _, ho => by
    rw [removeTop]
    exact ho.pull_left (removeTop_ordered ho.2.2.1) (by simp [Tree.toList])
  | .node l y r, _, .node l' y' r', _, _, ho => by
    have hy := ho.1 y (mem_top l r y)
    have hy' := ho.2.1 y' (mem_top l' r' y')
    rw [removeTop]
    split_ifs with hle
    · have hab := Above.of_sides hy.2.1 hy'.2.1 hy.1 hy'.1 hle
      exact ho.pull_left (removeTop_ordered ho.2.2.1) (ho.2.2.2.above_all hab)
    · have hab : Above y' y := .inl (by omega)
      exact ho.pull_right (removeTop_ordered ho.2.2.2) (ho.2.2.1.above_all hab)
termination_by l _ t => l.size + t.size
decreasing_by all_goals simp only [Tree.size]; omega

lemma filter_ne_of_not_mem {l : List Interval} (h : x ∉ l) :
    l.filter (fun z => decide (z ≠ x)) = l :=
  filter_eq_self.mpr fun z hz => by
    rw [decide_eq_true_iff]
    rintro rfl
    exact h hz

lemma toList_removeNode : ∀ {t : Tree}, t.toList.Nodup →
    (removeNode x t).toList.Perm (t.toList.filter fun z => decide (z ≠ x))
  | .nil, _ => by simp [removeNode, Tree.toList]
  | .node l y r, hnd => by
    obtain ⟨hyl, hyr, hndl, hndr, -⟩ := nodup_node hnd
    rw [removeNode]
    split_ifs with hyx
    · subst hyx
      have hy : y ∉ l.toList ++ r.toList := by simp [hyl, hyr]
      rw [Tree.toList, filter_cons_of_neg (by simp), filter_ne_of_not_mem hy]
      exact toList_removeTop l y r
    · rw [Tree.toList, Tree.toList, filter_cons_of_pos (by simpa using hyx), filter_append]
      exact Perm.cons y ((toList_removeNode hndl).append (toList_removeNode hndr))

lemma mem_removeNode (hnd : t.toList.Nodup)
    (hz : z ∈ (removeNode x t).toList) : z ∈ t.toList :=
  mem_of_mem_filter ((toList_removeNode hnd).mem_iff.mp hz)

lemma removeNode_ordered : ∀ {t : Tree} {j : ℕ} {f : Bool}, t.toList.Nodup →
    Ordered W j f t → Ordered W j f (removeNode x t)
  | .nil, _, _, _, _ => by simp [removeNode, Ordered]
  | .node l y r, j, f, hnd, ho => by
    obtain ⟨-, -, hndl, hndr, -⟩ := nodup_node hnd
    rw [removeNode]
    split_ifs
    · exact removeTop_ordered ho
    · exact ⟨fun z hz => ho.1 z (mem_removeNode hndl hz),
        fun z hz => ho.2.1 z (mem_removeNode hndr hz), removeNode_ordered hndl ho.2.2.1,
        removeNode_ordered hndr ho.2.2.2⟩

end LinuxKernel.PrioTree
