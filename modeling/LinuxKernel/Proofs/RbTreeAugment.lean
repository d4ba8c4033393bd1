import LinuxKernel.Proofs.RbTreeColor

/-!
# Insertion and erasure in an augmented red-black tree

A node has one place in the tree, as the rotations keep the order of the nodes, and an address kept
across the rebalancing leads to it. From there `rb_augment_path` finds a tree that it can mend.
-/

open LinuxKernel.Rb.Tree

namespace LinuxKernel.Rb

variable {α β : Type*} {func : Func α β} {x : α}

section

lemma blackenLast_cons (f : Frame α β) (path : List (Frame α β)) :
    ∃ c path', blackenLast (f :: path) = f.paint c :: path' ∧
      path'.map (·.sibling) = path.map (·.sibling) := by
  cases path with
  | nil => exact ⟨.black, [], rfl, rfl⟩
  | cons g path =>
    refine ⟨f.color, blackenLast (g :: path), rfl, ?_⟩
    exact blackenLast_map (k := fun f : Frame α β => f.sibling) (fun _ _ => rfl) (g :: path)

variable {path : List (Frame α β)} {a : β}

lemma rbLinkNode_nodup
    (hnd : (plugAll path nil : Tree α β).toList.Nodup)
    (hx : x ∉ (plugAll path nil : Tree α β).toList) : (rbLinkNode x a path).toList.Nodup := by
  obtain ⟨pre, post, hp⟩ := exists_toList_plugAll path
  rw [hp] at hnd hx
  rw [rbLinkNode, hp]
  simp only [toList, List.append_nil, List.nil_append] at hnd hx ⊢
  rw [List.append_assoc, List.singleton_append]
  exact List.nodup_middle.mpr (List.nodup_cons.mpr ⟨hx, hnd⟩)

variable [DecidableEq α]

lemma rbAugmentInsert_mends
    (hrb : (plugAll path nil : Tree α β).isRed = false) (hc : Correct func (plugAll path nil))
    (hnd : (plugAll path nil : Tree α β).toList.Nodup)
    (hx : x ∉ (plugAll path nil : Tree α β).toList) :
    ∃ t t', rbInsertColor x (rbLinkNode x a path) = some t ∧ rbAugmentInsert func x t = some t' ∧
      Correct func t' ∧ t'.toList = (rbLinkNode x a path).toList := by
  have hlink := rbLinkNode_nodup (a := a) hnd hx
  have hsib : ∀ f ∈ (⟨.left, .red, x, a, nil⟩ : Frame α β) :: path, Correct func f.sibling := by
    intro f hf
    rcases List.mem_cons.mp hf with rfl | hf
    · trivial
    · exact (correct_plugAll hc).2 f hf
  have hsome : (insertUp (⟨.left, .red, x, a, nil⟩ : Frame α β) path).isSome := by
    refine insertUp_isSome _ fun f hf => ?_
    rw [isRed_plugAll hf] at hrb
    cases hcol : f.color with
    | red => simp [hcol] at hrb
    | black => rfl
  obtain ⟨⟨low, n, rest⟩, hup⟩ := Option.isSome_iff_exists.mp hsome
  have hok := insertUp_spec hsib hup
  obtain ⟨c, rest', hblack, hrest⟩ := blackenLast_cons n rest
  have hrun : rbInsertColor x (rbLinkNode x a path) =
      some (plugAll rest' ((n.paint c).plug (plugAll low nil))) := by
    rw [rbInsertColor, rbLinkNode, locate_plugAll hlink]
    simp only [hup, Option.map_some, blackenLast_append, hblack, plugAll_append, plugAll]
  have horder : (plugAll rest' ((n.paint c).plug (plugAll low nil))).toList =
      (rbLinkNode x a path).toList := by
    have h₁ := blackenLast_sameOrder (low ++ n :: rest) nil
    rw [blackenLast_append, hblack, plugAll_append, plugAll, hok.order nil] at h₁
    exact h₁
  have hplug : (n.paint c).plug (plugAll low nil)
      = .node c (plugAll low nil) x n.agg n.sibling := by
    have hdir : n.dir = .left := hok.dir
    have hv : n.v = x := hok.v
    simp only [Frame.plug, Frame.paint, hdir, hv, join]
  rw [hplug] at hrun horder
  have hloc := locate_plugAll (horder ▸ hlink)
  have hkids : ∀ f ∈ rest', KidsOk func f.sibling := by
    intro f hf
    have hmem : f.sibling ∈ rest.map (·.sibling) := hrest ▸ List.mem_map_of_mem hf
    obtain ⟨g, hg, hgs⟩ := List.mem_map.mp hmem
    rw [← hgs]
    exact hok.kids g (List.mem_cons_of_mem _ hg)
  rcases hok.low with ⟨rfl, rfl⟩ | ⟨f, rfl, hf⟩
  · -- the new node has no children: the walk starts at it
    refine ⟨_, augmentPath func (.node c nil x a nil) rest', hrun, ?_,
      augmentPath_correct ⟨trivial, trivial⟩ hkids, ?_⟩
    · rw [rbAugmentInsert, hloc]
      rfl
    · rw [augmentPath_toList, ← horder]
      rfl
  · -- it was rotated above its parent and grandparent: the walk starts at its left child
    refine ⟨_, augmentPath func (f.plug nil) (⟨.left, c, x, n.agg, n.sibling⟩ :: rest'), hrun, ?_,
      augmentPath_correct (kidsOk_join trivial hf) ?_, ?_⟩
    · have hnil : (f.plug nil).isNil = false := by
        cases hd : f.dir <;> simp [Frame.plug, join, hd, isNil]
      rw [rbAugmentInsert, hloc]
      simp only [plugAll, hnil]
      rfl
    · intro g hg
      rcases List.mem_cons.mp hg with rfl | hg
      · exact hok.kids n (by simp)
      · exact hkids g hg
    · rw [augmentPath_toList, ← horder]
      rfl

end

section

lemma leftmost_spec : ∀ {t : Tree α β} (acc : List (Frame α β)), t ≠ nil →
    ∃ c v a r frames, leftmost t acc = some ((c, v, a, r), frames ++ acc) ∧
      t = plugAll frames (.node c nil v a r) ∧ t.toList = v :: (plugAll frames r).toList
  | .nil, _, h => absurd rfl h
  | .node c l v a r, acc, _ => by
    rw [leftmost]
    by_cases hl : l.isNil = true
    · rw [if_pos hl]
      obtain rfl := isNil_eq_true.mp hl
      exact ⟨c, v, a, r, [], rfl, rfl, rfl⟩
    rw [if_neg hl]
    obtain ⟨c', v', a', r', frames, hrun, ht, hlist⟩ :=
      leftmost_spec (⟨.left, c, v, a, r⟩ :: acc) (fun h => hl (isNil_eq_true.mpr h))
    refine ⟨c', v', a', r', frames ++ [⟨.left, c, v, a, r⟩], ?_, ?_, ?_⟩
    · rw [hrun, List.append_assoc, List.singleton_append]
    · rw [plugAll_append, ← ht]
      rfl
    · rw [plugAll_append]
      simp only [plugAll, Frame.plug, join, toList, hlist, List.cons_append]

variable [DecidableEq α] {root : Tree α β}

lemma toList_erase {path : List (Frame α β)} {c : Color} {l r t : Tree α β} {a : β}
    (hnd : (plugAll path (.node c l x a r)).toList.Nodup)
    (ht : t.toList = l.toList ++ r.toList) :
    (plugAll path t).toList = (plugAll path (.node c l x a r)).toList.erase x := by
  obtain ⟨pre, post, hp⟩ := exists_toList_plugAll path
  rw [hp, hp, ht]
  rw [hp] at hnd
  simp only [toList, List.append_assoc, List.cons_append] at hnd ⊢
  rw [← List.append_assoc] at hnd
  have hx : x ∉ pre ++ l.toList := by
    intro hmem
    exact (List.nodup_append.mp hnd).2.2 x hmem x (by simp) rfl
  rw [← List.append_assoc pre, ← List.append_assoc pre, List.erase_append_right _ hx,
    List.erase_cons_head]

/-- `rb_erase` puts a child in the place of a node of some colour, and `rb_augment_erase_begin`
names that child or its parent. -/
lemma rbErase_reduces (hrb : RedBlack root) (hc : Correct func root)
    (hnd : root.toList.Nodup) (hx : x ∈ root.toList) :
    ∃ color child path, rbErase x root = eraseChild color child path ∧
      rbAugmentEraseBegin x root = deepest child path ∧ Correct func child ∧
      (∀ f ∈ path, Correct func f.sibling) ∧ (color = .black → ∃ k, PathHeight path (k + 1)) ∧
      (plugAll path child).toList = root.toList.erase x := by
  obtain ⟨path, c, l, a, r, rfl⟩ := exists_plugAll_of_mem hx
  obtain ⟨⟨-, hl, hr⟩, hpath⟩ := correct_plugAll hc
  obtain ⟨-, h, hb⟩ := hrb
  obtain ⟨k, hk, hheight⟩ := BlackHeight.pathHeight (q := []) hb trivial
  rw [List.append_nil] at hheight
  have hblack : c = .black → ∃ k, PathHeight path (k + 1) := by
    rintro rfl
    obtain ⟨j, rfl, -⟩ := hk
    exact ⟨j, hheight⟩
  simp only [rbErase, rbAugmentEraseBegin, locate_plugAll hnd]
  by_cases hln : l = nil
  · refine ⟨c, r, path, ?_, ?_, hr, hpath, hblack, toList_erase hnd (by rw [hln]; rfl)⟩
    · rw [if_pos (isNil_eq_true.mpr hln)]
    · cases r <;> simp [hln, isNil, deepest, v?]
  have hl' : ¬l.isNil = true := fun h => hln (isNil_eq_true.mp h)
  by_cases hrn : r = nil
  · refine ⟨c, l, path, ?_, ?_, hl, hpath, hblack, toList_erase hnd (by rw [hrn]; simp [toList])⟩
    · rw [if_neg hl', if_pos (isNil_eq_true.mpr hrn)]
    · cases l with
      | nil => exact absurd rfl hln
      | node => simp [hrn, isNil, deepest, v?]
  -- two children: the next node takes the place, and its right child the next node's
  have hr' : ¬r.isNil = true := fun h => hrn (isNil_eq_true.mp h)
  obtain ⟨yc, yv, ya, yr, frames, hrun, hrt, hlist⟩ := leftmost_spec [] hrn
  rw [List.append_nil] at hrun
  have hy := correct_plugAll (hrt ▸ hr)
  refine ⟨yc, yr, frames ++ ⟨.right, c, yv, ya, l⟩ :: path, ?_, ?_, hy.1.2.2, ?_, ?_, ?_⟩
  · rw [if_neg hl', if_neg hr', hrun]
  · rw [if_neg (fun h => hr' h.1), if_neg hr', if_neg hl', hrun]
    cases yr <;> cases frames <;> simp [isNil, deepest, v?]
  · intro f hf
    simp only [List.mem_append, List.mem_cons] at hf
    rcases hf with hf | rfl | hf
    · exact hy.2 f hf
    · exact hl
    · exact hpath f hf
  · rintro rfl
    have hkids : ∃ j, BlackHeight r j ∧ PathHeight (⟨.right, c, yv, ya, l⟩ :: path) j := by
      cases c with
      | red => exact ⟨k, hk.2.1, hk.1, hheight⟩
      | black =>
        obtain ⟨j, rfl, hjl, hjr⟩ := hk
        exact ⟨j, hjr, hjl, hheight⟩
    obtain ⟨j, hjr, hjpath⟩ := hkids
    obtain ⟨m, hm, hmpath⟩ := BlackHeight.pathHeight (hrt ▸ hjr) hjpath
    obtain ⟨i, rfl, -⟩ := hm
    exact ⟨i, hmpath⟩
  · rw [plugAll_append, plugAll]
    refine toList_erase hnd ?_
    simp only [Frame.plug, join, toList, hlist]

lemma rbAugmentErase_mends (hrb : RedBlack root)
    (hc : Correct func root) (hnd : root.toList.Nodup) (hx : x ∈ root.toList) :
    ∃ t t', rbErase x root = some t ∧
      rbAugmentEraseEnd func (rbAugmentEraseBegin x root) t = some t' ∧
      Correct func t' ∧ t'.toList = root.toList.erase x := by
  obtain ⟨color, child, path, herase, hbegin, hchild, hpath, hheight, hlist⟩ :=
    rbErase_reduces hrb hc hnd hx
  have hsome : (eraseChild color child path).isSome := eraseChild_isSome hheight
  obtain ⟨t, ht⟩ := Option.isSome_iff_exists.mp hsome
  obtain ⟨child', path', rfl, hlist', hv, hchild', hok⟩ := eraseChild_spec hchild hpath ht
  have horder : (plugAll path' child').toList = root.toList.erase x := by
    rw [hok.order, toList_plugAll_congr path hlist', hlist]
  have hdeep : rbAugmentEraseBegin x root = deepest child' path' := by
    rw [hbegin, deepest, deepest, hv, hok.head]
  obtain ⟨t', hend, hcorrect, ht'⟩ := rbAugmentEraseEnd_correct hchild' hok.first hok.kids
    (horder ▸ hnd.erase x)
  exact ⟨_, t', by rw [herase, ht], by rw [hdeep, hend], hcorrect, ht'.trans horder⟩

/-- Linking a node, `rb_insert_color` and `rb_augment_insert` keep all aggregates of a red-black
tree correct; so do `rb_augment_erase_begin`, `rb_erase` and `rb_augment_erase_end` for the nodes
that remain. -/
theorem rbAugment_correct {root : Tree α β} (hrb : RedBlack root) (hc : Correct func root)
    (hnd : root.toList.Nodup) :
    (∀ path x a, plugAll path nil = root → x ∉ root.toList →
      ∃ t t', rbInsertColor x (rbLinkNode x a path) = some t ∧
        rbAugmentInsert func x t = some t' ∧ Correct func t' ∧
        t'.toList = (rbLinkNode x a path).toList) ∧
    ∀ x ∈ root.toList, ∃ t t', rbErase x root = some t ∧
      rbAugmentEraseEnd func (rbAugmentEraseBegin x root) t = some t' ∧
      Correct func t' ∧ t'.toList = root.toList.erase x := by
  refine ⟨?_, fun x hx => rbAugmentErase_mends hrb hc hnd hx⟩
  rintro path x a rfl hx
  exact rbAugmentInsert_mends hrb.1 hc hnd hx

theorem rbAugment_correct_sums :
    ∃ t t' : Tree ℕ ℕ,
      rbErase 2 (.node .black (.node .red .nil 1 1 .nil) 2 6 (.node .red .nil 3 3 .nil)) = some t ∧
      rbAugmentEraseEnd (fun v l r => l.getD 0 + v + r.getD 0)
        (rbAugmentEraseBegin 2
          (.node .black (.node .red .nil 1 1 .nil) 2 6 (.node .red .nil 3 3 .nil))) t = some t' ∧
      Correct (fun v l r => l.getD 0 + v + r.getD 0) t' ∧ t'.toList = [1, 3] := by
  have hrb : RedBlack (.node .black (.node .red .nil 1 1 .nil) 2 6 (.node .red .nil 3 3 .nil) :
      Tree ℕ ℕ) :=
    ⟨rfl, 1, 0, rfl, ⟨rfl, rfl, rfl, rfl⟩, rfl, rfl, rfl, rfl⟩
  have hc : Correct (fun v l r => l.getD 0 + v + r.getD 0)
      (.node .black (.node .red .nil 1 1 .nil) 2 6 (.node .red .nil 3 3 .nil)) :=
    ⟨rfl, ⟨rfl, trivial, trivial⟩, rfl, trivial, trivial⟩
  exact (rbAugment_correct hrb hc (by decide)).2 2 (by decide)

end

end LinuxKernel.Rb
