import LinuxKernel.Proofs.PrioTree

/-!
# The trees that insertion and removal build

A new root with more bits has the tree before it on the left, one level down for every bit: the
nodes that the expansion takes from the top fill the levels in between. Every tree built from an
empty root is then a priority search tree of the intervals it stores.
-/

namespace LinuxKernel.PrioTree

open List

variable {W j b heap depth : ℕ} {f : Bool} {root : Root} {x : Interval} {t t₀ : Tree}

/-- A tree with its nodes' indices below `2 ^ b`, in order for `b` bits. -/
structure Fits (W b : ℕ) (t : Tree) : Prop where
  ordered : Ordered W (b - 1) false t
  nodup : t.toList.Nodup
  last_lt : ∀ x ∈ t.toList, x.last < 2 ^ b

structure Valid (W : ℕ) (root : Root) : Prop where
  pos : 0 < root.indexBits
  le : root.indexBits ≤ W
  fits : Fits W root.indexBits root.tree

lemma fits_nil (b : ℕ) : Fits W b .nil := ⟨trivial, by simp [Tree.toList], by simp [Tree.toList]⟩

lemma valid_init (hW : 0 < W) : Valid W Root.init := ⟨Nat.one_pos, hW, fits_nil 1⟩

lemma Fits.removeNode (h : Fits W b t) (x : Interval) :
    Fits W b (removeNode x t) :=
  ⟨removeNode_ordered h.nodup h.ordered,
    (toList_removeNode h.nodup).nodup_iff.mpr (h.nodup.filter _),
    fun z hz => h.last_lt z (mem_removeNode h.nodup hz)⟩

lemma prioTreeRemove_tree (x : Interval) (root : Root) :
    (prioTreeRemove x root).tree = removeNode x root.tree := by
  unfold prioTreeRemove
  split
  · rename_i h
    rw [h]
    rfl
  · rfl

lemma prioTreeRemove_bits (h : removeNode x root.tree ≠ .nil) :
    (prioTreeRemove x root).indexBits = root.indexBits := by
  unfold prioTreeRemove
  split
  · rename_i hnil
    exact absurd hnil h
  · rfl

lemma prioTreeRemove_bits_nil (h : removeNode x root.tree = .nil) :
    (prioTreeRemove x root).indexBits = 1 := by simp [prioTreeRemove, h, Root.init]

lemma prioTreeRemove_valid (hW : 0 < W) (h : Valid W root) (x : Interval) :
    Valid W (prioTreeRemove x root) := by
  by_cases hnil : removeNode x root.tree = .nil
  · have heq : prioTreeRemove x root = Root.init := by simp [prioTreeRemove, hnil]
    rw [heq]
    exact valid_init hW
  · have hb := prioTreeRemove_bits hnil
    refine ⟨by rw [hb]; exact h.pos, by rw [hb]; exact h.le, ?_⟩
    rw [hb, prioTreeRemove_tree]
    exact h.fits.removeNode x

lemma toList_leftChain (t : Tree) : ∀ xs : List Interval, (leftChain t xs).toList = xs ++ t.toList
  | [] => rfl
  | x :: xs => by simp [leftChain, Tree.toList, toList_leftChain t xs]

lemma leftChain_ordered (hb : 0 < b) (ht : Ordered W (b - 1) false t)
    (hlast : ∀ z ∈ t.toList, z.last < 2 ^ b) : ∀ {xs : List Interval} {j : ℕ},
    xs.Pairwise Above → (∀ x ∈ xs, ∀ z ∈ t.toList, Above x z) →
    (∀ x ∈ xs.head?, x.last < 2 ^ (j + 1)) → (∀ x ∈ xs.tail, x.last < 2 ^ b) →
    b + xs.length ≤ j + 1 → (t ≠ .nil → b + xs.length = j + 1) → Ordered W j false (leftChain t xs)
  | [], j, _, _, _, _, _, hj => by
    rw [leftChain]
    by_cases hnil : t = .nil
    · rw [hnil]
      trivial
    · have hjb : j = b - 1 := by have := hj hnil; simp at this; omega
      rw [hjb]
      exact ht
  | x :: xs, j, hp, hab, hhead, htail, hle, hj => by
    simp only [length_cons] at hle hj
    rw [pairwise_cons] at hp
    have hpow : 2 ^ b ≤ 2 ^ j := Nat.pow_le_pow_right two_pos (by omega)
    have hpow' : 2 ^ j ≤ 2 ^ (j + 1) := Nat.pow_le_pow_right two_pos (by omega)
    have hlow : ∀ z ∈ (leftChain t xs).toList, z.last < 2 ^ b := fun z hz => by
      rw [toList_leftChain, mem_append] at hz
      rcases hz with hz | hz
      · exact htail z hz
      · exact hlast z hz
    have hx : x.last < 2 ^ (j + 1) := hhead x rfl
    have hnext : nextBit W j false = (j - 1, false) := by
      unfold nextBit
      rw [if_neg (by omega)]
    refine ⟨fun z hz => ?_, by simp [Tree.toList], ?_, trivial⟩
    · have hz' := hlow z hz
      refine ⟨side_eq_false_of_lt (by omega), near_of_lt hx (by omega), ?_⟩
      rw [toList_leftChain, mem_append] at hz
      rcases hz with hz | hz
      · exact hp.1 z hz
      · exact hab x (by simp) z hz
    · rw [hnext]
      have hj1 : j - 1 + 1 = j := by omega
      refine leftChain_ordered hb ht hlast hp.2 (fun y hy => hab y (by simp [hy])) ?_ ?_
        (by omega) (fun hnil => by have := hj hnil; omega)
      · intro y hy
        rw [hj1]
        have := htail y (List.mem_of_mem_head? hy)
        omega
      · exact fun y hy => htail y (mem_of_mem_tail hy)

structure Taking (W b heap : ℕ) (t₀ : Tree) (root : Root) (taken : List Interval) : Prop where
  ordered : Ordered W (b - 1) false root.tree
  perm : (taken ++ root.tree.toList).Perm t₀.toList
  pairwise : taken.Pairwise Above
  above : ∀ x ∈ taken, ∀ z ∈ root.tree.toList, Above x z
  heap_ge : 2 ^ (b + taken.length) ≤ heap
  bits : root.tree ≠ .nil → root.indexBits = b + 1 + taken.length
  pos : 0 < root.indexBits
  le : root.indexBits ≤ W

lemma size_eq_length : ∀ t : Tree, t.size = t.toList.length
  | .nil => rfl
  | .node l x r => by simp [Tree.size, Tree.toList, size_eq_length l, size_eq_length r]

lemma size_removeTop (l r : Tree) (y : Interval) :
    (removeTop (.node l y r)).size + 1 = (Tree.node l y r).size := by
  rw [size_eq_length, (toList_removeTop l y r).length_eq, Tree.size, size_eq_length l,
    size_eq_length r, length_append]

lemma bits_lt (hheap : heap < 2 ^ W) {bits : ℕ} (h : heap > maxindex bits) : bits < W := by
  unfold maxindex at h
  have hpos : 0 < 2 ^ bits := Nat.two_pow_pos bits
  exact (Nat.pow_lt_pow_iff_right (by decide : 1 < 2)).mp (by omega)

lemma removeNode_top (l r : Tree) (y : Interval) :
    removeNode y (.node l y r) = removeTop (.node l y r) := by rw [removeNode, if_pos rfl]

lemma Taking.take {l r : Tree} {y : Interval} {bits : ℕ} {taken : List Interval} (hW : 0 < W)
    (h : Taking W b heap t₀ ⟨.node l y r, bits⟩ taken) (hheap : heap < 2 ^ W)
    (hmax : heap > maxindex bits) :
    Taking W b heap t₀ (prioTreeRemove y ⟨.node l y r, bits + 1⟩) (taken ++ [y]) := by
  have hbits : bits = b + 1 + taken.length := h.bits (by simp)
  have hlt := bits_lt hheap hmax
  have htree : (prioTreeRemove y ⟨.node l y r, bits + 1⟩).tree = removeTop (.node l y r) := by
    rw [prioTreeRemove_tree, removeNode_top]
  constructor
  · rw [htree]
    exact removeTop_ordered h.ordered
  · rw [htree, append_assoc]
    exact (((toList_removeTop l y r).cons y).append_left taken).trans h.perm
  · rw [pairwise_append]
    refine ⟨h.pairwise, pairwise_singleton _ _, fun x hx z hz => ?_⟩
    rw [mem_singleton.mp hz]
    exact h.above x hx y (mem_top l r y)
  · intro x hx z hz
    rw [htree] at hz
    rcases mem_append.mp hx with hx | hx
    · exact h.above x hx z (mem_removeTop hz)
    · rw [mem_singleton.mp hx]
      exact Ordered.above_rest h.ordered hz
  · unfold maxindex at hmax
    rw [length_append, length_singleton, show b + (taken.length + 1) = bits by omega]
    omega
  · intro hne
    rw [htree] at hne
    rw [prioTreeRemove_bits (by rw [removeNode_top]; exact hne), length_append, length_singleton]
    show bits + 1 = _
    omega
  · by_cases hnil : removeNode y (.node l y r) = .nil
    · rw [prioTreeRemove_bits_nil hnil]
      exact Nat.one_pos
    · rw [prioTreeRemove_bits hnil]
      exact Nat.succ_pos bits
  · by_cases hnil : removeNode y (.node l y r) = .nil
    · rw [prioTreeRemove_bits_nil hnil]
      exact hW
    · rw [prioTreeRemove_bits hnil]
      exact hlt

lemma expandLoop_spec (hW : 0 < W) (hheap : heap < 2 ^ W) :
    ∀ {fuel : ℕ} {root : Root} {taken : List Interval}, Taking W b heap t₀ root taken →
    root.tree.size * (W + 1) + (W - root.indexBits) < fuel →
    Taking W b heap t₀ (expandLoop heap fuel root taken).2 (expandLoop heap fuel root taken).1 ∧
      heap ≤ maxindex (expandLoop heap fuel root taken).2.indexBits
  | 0, _, _, _, hfuel => by omega
  | fuel + 1, ⟨tree, bits⟩, taken, h, hfuel => by
    rw [expandLoop]
    split_ifs with hmax
    · have hlt := bits_lt hheap hmax
      cases tree with
      | nil =>
        refine expandLoop_spec hW hheap ?_ ?_
        · exact ⟨h.ordered, h.perm, h.pairwise, h.above, h.heap_ge, fun hne => absurd rfl hne,
            Nat.succ_pos bits, hlt⟩
        · simp only at hlt hfuel ⊢
          omega
      | node l y r =>
        refine expandLoop_spec hW hheap (h.take hW hheap hmax) ?_
        have hsize := size_removeTop l r y
        rw [prioTreeRemove_tree, removeNode_top]
        simp only at hfuel
        rw [← hsize, add_mul, one_mul] at hfuel
        omega
    · exact ⟨h, by simpa using hmax⟩

lemma prioTreeExpand_spec (hW : 0 < W) (h : Valid W root)
    (hx : x.last < 2 ^ W) (hmax : x.last > maxindex root.indexBits) :
    Valid W (prioTreeExpand W x root) ∧
      (prioTreeExpand W x root).tree.toList.Perm (x :: root.tree.toList) := by
  have hlt := bits_lt hx hmax
  have hstart : Taking W root.indexBits x.last root.tree ⟨root.tree, root.indexBits + 1⟩ [] := by
    refine ⟨h.fits.ordered, by simp, List.Pairwise.nil, by simp, ?_, fun _ => by simp,
      Nat.succ_pos _, hlt⟩
    unfold maxindex at hmax
    simp only [length_nil, add_zero]
    omega
  have hfuel : root.tree.size * (W + 1) + (W - (root.indexBits + 1)) <
      (root.tree.size + 1) * (W + 1) := by
    rw [add_mul, one_mul]
    omega
  obtain ⟨hend, hroom⟩ := expandLoop_spec hW hx hstart hfuel
  unfold prioTreeExpand
  simp only [if_pos hmax]
  generalize expandLoop x.last ((root.tree.size + 1) * (W + 1))
    ⟨root.tree, root.indexBits + 1⟩ [] = res at hend hroom
  obtain ⟨taken, root'⟩ := res
  simp only at hend hroom ⊢
  have hlast : ∀ z ∈ taken ++ root'.tree.toList, z.last < 2 ^ root.indexBits := fun z hz =>
    h.fits.last_lt z (hend.perm.mem_iff.mp hz)
  have hpow : 2 ^ root.indexBits ≤ x.last := by unfold maxindex at hmax; omega
  have hxroom : x.last < 2 ^ root'.indexBits := by
    have := Nat.two_pow_pos root'.indexBits
    unfold maxindex at hroom
    omega
  have hbits : root.indexBits + taken.length < root'.indexBits :=
    (Nat.pow_lt_pow_iff_right (by decide : 1 < 2)).mp (hend.heap_ge.trans_lt hxroom)
  have habove : ∀ z ∈ taken ++ root'.tree.toList, Above x z := fun z hz =>
    .inl ((hlast z hz).trans_le hpow)
  have hperm : (leftChain root'.tree (x :: taken)).toList.Perm (x :: root.tree.toList) := by
    rw [toList_leftChain]
    exact hend.perm.cons x
  have hsub : root'.indexBits - 1 + 1 = root'.indexBits := by have := hend.pos; omega
  refine ⟨⟨hend.pos, hend.le, ?_, ?_, ?_⟩, hperm⟩
  · refine leftChain_ordered h.pos hend.ordered (fun z hz => hlast z (by simp [hz]))
      ?_ ?_ ?_ ?_ ?_ ?_
    · rw [pairwise_cons]
      exact ⟨fun z hz => habove z (by simp [hz]), hend.pairwise⟩
    · intro y hy z hz
      rcases mem_cons.mp hy with rfl | hy
      · exact habove z (by simp [hz])
      · exact hend.above y hy z hz
    · intro y hy
      obtain rfl : x = y := by simpa using hy
      rw [hsub]
      exact hxroom
    · exact fun y hy => hlast y (by simp at hy; simp [hy])
    · simp only [length_cons]
      omega
    · intro hne
      have := hend.bits hne
      simp only [length_cons]
      omega
  · refine hperm.nodup_iff.mpr (nodup_cons.mpr ⟨fun hmem => ?_, h.fits.nodup⟩)
    have := h.fits.last_lt x hmem
    omega
  · intro z hz
    have hz' : z ∈ (leftChain root'.tree (x :: taken)).toList := hz
    rw [toList_leftChain, cons_append, mem_cons] at hz'
    rcases hz' with rfl | hz'
    · exact hxroom
    · have := hlast z hz'
      simp only
      omega

lemma prioTreeExpand_nil (hnil : root.tree = .nil) (hmax : ¬ x.last > maxindex root.indexBits) :
    prioTreeExpand W x root = ⟨.node .nil x .nil, root.indexBits⟩ := by
  unfold prioTreeExpand
  rw [if_neg hmax, hnil]
  simp only [Tree.size, zero_add, one_mul, expandLoop, if_neg hmax, hnil, leftChain]

lemma prioTreeInsert_spec (hW : 0 < W) (h : Valid W root) (hx : x.last < 2 ^ W) : ∃ root',
      prioTreeInsert W x root = some (decide (x ∈ root.tree.toList), root') ∧ Valid W root' ∧
      root'.tree.toList.Perm
        (if x ∈ root.tree.toList then root.tree.toList else x :: root.tree.toList) := by
  unfold prioTreeInsert
  by_cases hmax : x.last > maxindex root.indexBits
  · have hmem : x ∉ root.tree.toList := fun hmem => by
      have := h.fits.last_lt x hmem
      unfold maxindex at hmax
      omega
    rw [if_pos (.inr hmax), if_neg hmem]
    exact ⟨_, by simp [hmem], prioTreeExpand_spec hW h hx hmax⟩
  have hroom : x.last < 2 ^ root.indexBits := by
    have := Nat.two_pow_pos root.indexBits
    unfold maxindex at hmax
    omega
  have hsub : root.indexBits - 1 + 1 = root.indexBits := by have := h.pos; omega
  by_cases hnil : root.tree = .nil
  · rw [if_pos (.inl (by rw [hnil]; rfl)), prioTreeExpand_nil hnil hmax, hnil]
    refine ⟨⟨.node .nil x .nil, root.indexBits⟩, by simp [Tree.toList],
      ⟨h.pos, h.le, ?_, ?_, ?_⟩, ?_⟩
    · simp [Ordered, Tree.toList]
    · simp [Tree.toList]
    · simpa [Tree.toList] using hroom
    · simp [Tree.toList]
  have hcond : ¬ (root.tree.isNil ∨ x.last > maxindex root.indexBits) := by
    rintro (hn | hn)
    · cases ht : root.tree with
      | nil => exact hnil ht
      | node l y r => rw [ht] at hn; simp [Tree.isNil] at hn
    · exact hmax hn
  rw [if_neg hcond, insertLoop_eq h.fits.ordered h.fits.nodup]
  have hperm := insertTree_toList (x := x) h.fits.ordered h.fits.nodup
  refine ⟨_, rfl, ⟨h.pos, h.le, ?_, ?_, ?_⟩, hperm⟩
  · refine insertTree_ordered hW h.fits.ordered h.fits.nodup (fun z hz => ?_) hx (fun z hz => ?_)
    · exact near_of_lt (by rw [hsub]; exact hroom) (by rw [hsub]; exact h.fits.last_lt z hz)
    · exact (h.fits.last_lt z hz).trans_le (Nat.pow_le_pow_right two_pos h.le)
  · rw [hperm.nodup_iff]
    split_ifs with hmem
    · exact h.fits.nodup
    · exact nodup_cons.mpr ⟨hmem, h.fits.nodup⟩
  · intro z hz
    rcases mem_insertTree h.fits.ordered h.fits.nodup hz with rfl | hz
    · exact hroom
    · exact h.fits.last_lt z hz

inductive Reach (W : ℕ) : Root → Finset Interval → Prop where
  | init : Reach W Root.init ∅
  | insert {root root' : Root} {S : Finset Interval} {found : Bool} (x : Interval) :
      Reach W root S → x.last < 2 ^ W → prioTreeInsert W x root = some (found, root') →
      Reach W root' (insert x S)
  | remove {root : Root} {S : Finset Interval} (x : Interval) : Reach W root S → x ∈ S →
      Reach W (prioTreeRemove x root) (S.erase x)

lemma Reach.valid (hW : 0 < W) {S : Finset Interval} (h : Reach W root S) :
    Valid W root ∧ ∀ z, z ∈ root.tree.toList ↔ z ∈ S := by
  induction h with
  | init => exact ⟨valid_init hW, by simp [Root.init, Tree.toList]⟩
  | insert x _ hx hins ih =>
    obtain ⟨hv, hmem⟩ := ih
    obtain ⟨root', heq, hv', hperm⟩ := prioTreeInsert_spec hW hv hx
    rw [heq, Option.some.injEq, Prod.mk.injEq] at hins
    obtain ⟨-, rfl⟩ := hins
    refine ⟨hv', fun z => ?_⟩
    rw [hperm.mem_iff, Finset.mem_insert, ← hmem z]
    split_ifs with hxm
    · refine ⟨.inr, ?_⟩
      rintro (rfl | hz)
      · exact hxm
      · exact hz
    · exact mem_cons
  | remove x _ _ ih =>
    obtain ⟨hv, hmem⟩ := ih
    refine ⟨prioTreeRemove_valid hW hv x, fun z => ?_⟩
    rw [prioTreeRemove_tree, (toList_removeNode hv.fits.nodup).mem_iff, mem_filter,
      decide_eq_true_iff, hmem z, Finset.mem_erase, and_comm]

/-- The bit that a level of a tree of `b` bits goes by: one of the radix index on the first `b`
levels, and then one of the size. -/
def levelBit (W b depth : ℕ) (x : Interval) : Bool :=
  if depth < b then x.start.testBit (b - 1 - depth)
  else (x.last - x.start).testBit (W - 1 - (depth - b))

def PrioOrder (W b : ℕ) : ℕ → Tree → Prop
  | _, .nil => True
  | depth, .node l y r =>
    (∀ x ∈ l.toList, x.last ≤ y.last ∧ levelBit W b depth x = false) ∧
    (∀ x ∈ r.toList, x.last ≤ y.last ∧ levelBit W b depth x = true) ∧
    PrioOrder W b (depth + 1) l ∧ PrioOrder W b (depth + 1) r

/-- A level and the bit that the model goes by there. -/
def AtLevel (W b depth j : ℕ) (f : Bool) : Prop :=
  f = false ∧ depth < b ∧ j = b - 1 - depth ∨
    f = true ∧ b ≤ depth ∧ depth < b + W ∧ j = W - 1 - (depth - b)

lemma levelBit_eq_side (h : AtLevel W b depth j f) (x : Interval) :
    levelBit W b depth x = side j f x := by
  unfold levelBit side Interval.index
  rcases h with ⟨rfl, hlt, rfl⟩ | ⟨rfl, hle, -, rfl⟩
  · rw [if_pos hlt, if_neg (by decide)]
  · rw [if_neg (by omega), if_pos rfl]

lemma AtLevel.next (h : AtLevel W b depth j f)
    (hlast : ¬ (f = true ∧ j = 0)) (hW : 0 < W) :
    AtLevel W b (depth + 1) (nextBit W j f).1 (nextBit W j f).2 := by
  unfold AtLevel at *
  unfold nextBit
  by_cases hj : j = 0
  · rw [if_pos hj]
    rcases h with ⟨rfl, hlt, hjd⟩ | ⟨rfl, -⟩
    · exact .inr ⟨rfl, by omega, by omega, by simp only; omega⟩
    · exact absurd ⟨rfl, hj⟩ hlast
  · rw [if_neg hj]
    rcases h with ⟨rfl, hlt, hjd⟩ | ⟨rfl, hle, hlt, hjd⟩
    · exact .inl ⟨rfl, by omega, by simp only; omega⟩
    · exact .inr ⟨rfl, by omega, by omega, by simp only; omega⟩

lemma prioOrder_leaf (hnd : t.toList.Nodup)
    (hsub : ∀ x ∈ t.toList, ∀ y ∈ t.toList, x = y) : PrioOrder W b depth t := by
  by_cases hnil : t = .nil
  · rw [hnil]
    trivial
  · obtain ⟨x, rfl⟩ := leaf_of_subsingleton hnil hnd hsub
    simp [PrioOrder, Tree.toList]

lemma Ordered.prioOrder (hW : 0 < W) : ∀ {t : Tree} {depth j : ℕ} {f : Bool},
    Ordered W j f t → t.toList.Nodup → AtLevel W b depth j f → PrioOrder W b depth t
  | .nil, _, _, _, _, _, _ => trivial
  | .node l y r, depth, j, f, ho, hnd, hlev => by
    obtain ⟨-, -, hndl, hndr, -⟩ := nodup_node hnd
    refine ⟨fun x hx => ⟨(ho.1 x hx).2.2.last_le, ?_⟩,
      fun x hx => ⟨(ho.2.1 x hx).2.2.last_le, ?_⟩, ?_⟩
    · rw [levelBit_eq_side hlev]
      exact (ho.1 x hx).1
    · rw [levelBit_eq_side hlev]
      exact (ho.2.1 x hx).1
    by_cases hlast : f = true ∧ j = 0
    · -- below the last bit of the size there is one node at most
      obtain ⟨rfl, rfl⟩ := hlast
      exact ⟨prioOrder_leaf hndl fun x hx z hz =>
          eq_of_last_bit ((ho.1 x hx).2.1.symm.trans (ho.1 z hz).2.1)
            ((ho.1 x hx).1.trans (ho.1 z hz).1.symm), prioOrder_leaf hndr fun x hx z hz =>
          eq_of_last_bit ((ho.2.1 x hx).2.1.symm.trans (ho.2.1 z hz).2.1)
            ((ho.2.1 x hx).1.trans (ho.2.1 z hz).1.symm)⟩
    · have hnext := hlev.next hlast hW
      exact ⟨ho.2.2.1.prioOrder hW hndl hnext, ho.2.2.2.prioOrder hW hndr hnext⟩

end LinuxKernel.PrioTree
