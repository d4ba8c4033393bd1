import LinuxKernel.Proofs.PrioTreeReach

/-!
# The iterator over the overlapping nodes of a priority search tree

The iterator goes through the nodes in preorder and leaves out subtrees without an overlapping node.
`prio_tree_parent` undoes the last step down, so what is still to come is the overlapping nodes
below it and on the right of the nodes it left by their left child.
-/

namespace LinuxKernel.PrioTree

variable {W r h j value : ℕ} {root : Root} {l t : Tree} {m : ℕ × ℕ} {z x : Interval} {iter : Iter}
  {path : List Frame}

def Iter.rightValue (iter : Iter) : ℕ :=
  if iter.sizeLevel ≠ 0 then iter.value else iter.value ||| iter.mask

inductive At (W : ℕ) (root : Root) : Iter → Prop where
  | top : root.tree ≠ .nil → At W root ⟨2 ^ (root.indexBits - 1), 0, 0, root.tree, []⟩
  | left {iter : Iter} {l t : Tree} {x : Interval} {m : ℕ × ℕ} : At W root iter →
      iter.cur = .node l x t → l ≠ .nil → iter.down W l = some m →
      At W root ⟨m.1, iter.value, m.2, l, .left x t :: iter.path⟩
  | right {iter : Iter} {l t : Tree} {x : Interval} {m : ℕ × ℕ} : At W root iter →
      iter.cur = .node l x t → t ≠ .nil → iter.down W t = some m →
      At W root ⟨m.1, iter.rightValue, m.2, t, .right l x :: iter.path⟩

/-- `iter->value` holds the bits above `j` of the radix index of `z`. -/
def Holds (j : ℕ) (f : Bool) (value : ℕ) (z : Interval) : Prop :=
  value = if f then z.start else z.start / 2 ^ (j + 1) * 2 ^ (j + 1)

structure Inner (W : ℕ) (iter : Iter) (j : ℕ) : Prop where
  lt : j < W
  mask : iter.mask = 2 ^ j
  ordered : Ordered W j (decide (iter.sizeLevel ≠ 0)) iter.cur
  nodup : iter.cur.toList.Nodup
  last_lt : ∀ z ∈ iter.cur.toList, z.last < 2 ^ W
  holds : ∀ z ∈ iter.cur.toList, Holds j (decide (iter.sizeLevel ≠ 0)) iter.value z

structure Bottom (W : ℕ) (iter : Iter) : Prop where
  mask : iter.mask = 2 ^ W - 1
  leaf : ∃ x, iter.cur = .node .nil x .nil

lemma down_succ (hmask : iter.mask = 2 ^ (j + 1)) (c : Tree) :
    iter.down W c = some (2 ^ j, if iter.sizeLevel ≠ 0 then iter.sizeLevel + 1 else 0) := by
  have hdiv : iter.mask / 2 = 2 ^ j := by rw [hmask, pow_succ]; omega
  have hpos : 2 ^ j ≠ 0 := by positivity
  unfold Iter.down
  rw [hdiv, if_pos hpos]

lemma down_zero (hmask : iter.mask = 1) (hs : iter.sizeLevel = 0) (c : Tree) :
    iter.down W c = some (2 ^ (W - 1), 1) := by simp [Iter.down, hmask, hs]

lemma down_leaf (hmask : iter.mask = 1) (hs : iter.sizeLevel ≠ 0) (x : Interval) :
    iter.down W (.node .nil x .nil) = some (2 ^ W - 1, iter.sizeLevel + 1) := by
  simp [Iter.down, hmask, hs]

lemma start_eq_index (z : Interval) : z.index false = z.start := rfl

lemma Holds.next {f : Bool} (hz : Holds j f value z) :
    Holds (nextBit W j f).1 (nextBit W j f).2
      (if f = false ∧ side j f z then value + 2 ^ j else value) z := by
  unfold Holds at *
  cases f with
  | true =>
    have hnext : (nextBit W j true).2 = true := by unfold nextBit; split <;> rfl
    simpa [hnext] using hz
  | false =>
    have hmod : z.start / 2 ^ j * 2 ^ j = if side j false z then value + 2 ^ j else value := by
      have hq : z.start / 2 ^ j = 2 * (z.start / 2 ^ (j + 1)) + z.start / 2 ^ j % 2 := by
        rw [pow_succ, ← Nat.div_div_eq_div_mul]
        omega
      have hs := side_eq_mod (j := j) (f := false) z
      rw [start_eq_index] at hs
      simp only [Bool.false_eq_true, if_false] at hz
      rw [hq, hz, hs]
      by_cases hb : z.start / 2 ^ j % 2 = 1
      · rw [hb]
        simp only [decide_true, if_true]
        ring
      · have hb0 : z.start / 2 ^ j % 2 = 0 := by omega
        rw [hb0]
        simp only [Nat.zero_ne_one, decide_false, Bool.false_eq_true, if_false]
        ring
    simp only [true_and]
    rw [← hmod]
    unfold nextBit
    cases j with
    | zero => simp
    | succ j => simp

lemma or_mask (hz : Holds j false value z) :
    value ||| 2 ^ j = value + 2 ^ j := by
  unfold Holds at hz
  rw [hz, if_neg (by decide), mul_comm]
  exact (Nat.two_pow_add_eq_or_of_lt (Nat.pow_lt_pow_right (by decide) (by omega)) _).symm

lemma Inner.holds_child (hi : Inner W iter j) (hcur : iter.cur = .node l x t) :
    (z ∈ l.toList → Holds (nextBit W j (decide (iter.sizeLevel ≠ 0))).1
      (nextBit W j (decide (iter.sizeLevel ≠ 0))).2 iter.value z) ∧
    (z ∈ t.toList → Holds (nextBit W j (decide (iter.sizeLevel ≠ 0))).1
      (nextBit W j (decide (iter.sizeLevel ≠ 0))).2 iter.rightValue z) := by
  have ho := hi.ordered
  rw [hcur] at ho
  constructor
  · intro hz
    have hh := (hi.holds z (by rw [hcur]; simp [Tree.toList, hz])).next (W := W)
    rwa [(ho.1 z hz).1, if_neg (by simp)] at hh
  intro hz
  have hzh := hi.holds z (by rw [hcur]; simp [Tree.toList, hz])
  have hh := hzh.next (W := W)
  rw [(ho.2.1 z hz).1] at hh
  unfold Iter.rightValue
  by_cases hs : iter.sizeLevel = 0
  · simp only [hs, ne_eq, not_true, decide_false] at hh hzh ⊢
    rw [if_neg (by simp), hi.mask, or_mask hzh]
    simpa using hh
  · simp only [hs, ne_eq, not_false_eq_true, decide_true] at hh ⊢
    simpa using hh

lemma Inner.child_leaf {c : Tree} (hi : Inner W iter 0)
    (hcur : iter.cur = .node l x t) (hs : iter.sizeLevel ≠ 0) (hc : c = l ∨ c = t)
    (hne : c ≠ .nil) : ∃ y, c = .node .nil y .nil := by
  have ho := hi.ordered
  have hnd := hi.nodup
  rw [hcur] at ho hnd
  obtain ⟨-, -, hndl, hndr, -⟩ := nodup_node hnd
  simp only [ne_eq, hs, not_false_eq_true, decide_true] at ho
  rcases hc with rfl | rfl
  · exact leaf_of_subsingleton hne hndl fun y hy z hz =>
      eq_of_last_bit ((ho.1 y hy).2.1.symm.trans (ho.1 z hz).2.1)
        ((ho.1 y hy).1.trans (ho.1 z hz).1.symm)
  · exact leaf_of_subsingleton hne hndr fun y hy z hz =>
      eq_of_last_bit ((ho.2.1 y hy).2.1.symm.trans (ho.2.1 z hz).2.1)
        ((ho.2.1 y hy).1.trans (ho.2.1 z hz).1.symm)

lemma Inner.down_some {c : Tree} (hi : Inner W iter j)
    (hcur : iter.cur = .node l x t) (hc : c = l ∨ c = t) (hne : c ≠ .nil) :
    ∃ m, iter.down W c = some m := by
  cases j with
  | succ j => exact ⟨_, down_succ hi.mask c⟩
  | zero =>
    by_cases hs : iter.sizeLevel = 0
    · exact ⟨_, down_zero hi.mask hs c⟩
    · obtain ⟨y, rfl⟩ := hi.child_leaf hcur hs hc hne
      exact ⟨_, down_leaf hi.mask hs y⟩

lemma Inner.child {c : Tree} (hW : 1 < W) (hi : Inner W iter j) (hcur : iter.cur = .node l x t)
    (hc : c = l ∨ c = t) (hne : c ≠ .nil) (hdown : iter.down W c = some m)
    (hvalue : ∀ z ∈ c.toList, Holds (nextBit W j (decide (iter.sizeLevel ≠ 0))).1
      (nextBit W j (decide (iter.sizeLevel ≠ 0))).2 value z) :
    (∃ j', Inner W ⟨m.1, value, m.2, c, path⟩ j') ∨ Bottom W ⟨m.1, value, m.2, c, path⟩ := by
  have ho := hi.ordered
  have hnd := hi.nodup
  rw [hcur] at ho hnd
  obtain ⟨-, -, hndl, hndr, -⟩ := nodup_node hnd
  have hndc : c.toList.Nodup := by
    rcases hc with rfl | rfl
    · exact hndl
    · exact hndr
  have hlast : ∀ z ∈ c.toList, z.last < 2 ^ W := fun z hz => by
    refine hi.last_lt z ?_
    rw [hcur]
    rcases hc with rfl | rfl <;> simp [Tree.toList, hz]
  have hoc : Ordered W (nextBit W j (decide (iter.sizeLevel ≠ 0))).1
      (nextBit W j (decide (iter.sizeLevel ≠ 0))).2 c := by
    rcases hc with rfl | rfl
    · exact ho.2.2.1
    · exact ho.2.2.2
  have hlt := hi.lt
  cases j with
  | succ j =>
    rw [down_succ hi.mask] at hdown
    obtain rfl := Option.some.inj hdown
    have hflag : decide ((if iter.sizeLevel ≠ 0 then iter.sizeLevel + 1 else 0) ≠ 0) =
        decide (iter.sizeLevel ≠ 0) := by by_cases hs : iter.sizeLevel = 0 <;> simp [hs]
    have hnext : nextBit W (j + 1) (decide (iter.sizeLevel ≠ 0)) =
        (j, decide (iter.sizeLevel ≠ 0)) := by simp [nextBit]
    rw [hnext] at hoc hvalue
    refine .inl ⟨j, by omega, rfl, ?_, hndc, hlast, ?_⟩
    · simp only [hflag]
      exact hoc
    · simp only [hflag]
      exact hvalue
  | zero =>
    by_cases hs : iter.sizeLevel = 0
    · rw [down_zero hi.mask hs] at hdown
      obtain rfl := Option.some.inj hdown
      exact .inl ⟨W - 1, by omega, rfl, by simpa [nextBit] using hoc, hndc, hlast,
        by simpa [nextBit] using hvalue⟩
    · obtain ⟨y, rfl⟩ := hi.child_leaf hcur hs hc hne
      rw [down_leaf hi.mask hs] at hdown
      obtain rfl := Option.some.inj hdown
      exact .inr ⟨rfl, y, rfl⟩

lemma At.level (hW : 1 < W) (hv : Valid W root) (ha : At W root iter) :
    (∃ j, Inner W iter j) ∨ Bottom W iter := by
  induction ha with
  | top hne =>
    have hpos := hv.pos
    have hsub : root.indexBits - 1 + 1 = root.indexBits := by omega
    refine .inl ⟨root.indexBits - 1, by have := hv.le; omega, rfl, by simpa using hv.fits.ordered,
      hv.fits.nodup, fun z hz => (hv.fits.last_lt z hz).trans_le
        (Nat.pow_le_pow_right two_pos hv.le), fun z hz => ?_⟩
    have hz' := hv.fits.last_lt z hz
    have hle := z.le
    have hdiv : z.start / 2 ^ root.indexBits = 0 := Nat.div_eq_of_lt (by omega)
    simp [Holds, hsub, hdiv]
  | left _ hcur hne hdown ih =>
    rcases ih with ⟨j, hi⟩ | hb
    · exact hi.child hW hcur (.inl rfl) hne hdown fun z hz => (hi.holds_child hcur).1 hz
    · obtain ⟨y, hy⟩ := hb.leaf
      rw [hcur, Tree.node.injEq] at hy
      exact absurd hy.1 hne
  | right _ hcur hne hdown ih =>
    rcases ih with ⟨j, hi⟩ | hb
    · exact hi.child hW hcur (.inr rfl) hne hdown fun z hz => (hi.holds_child hcur).2 hz
    · obtain ⟨y, hy⟩ := hb.leaf
      rw [hcur, Tree.node.injEq] at hy
      exact absurd hy.2.2 hne

lemma At.inner (hW : 1 < W) (hv : Valid W root) (ha : At W root iter)
    (hcur : iter.cur = .node l x t) (hne : l ≠ .nil ∨ t ≠ .nil) :
    ∃ j, Inner W iter j := by
  rcases ha.level hW hv with hi | hb
  · exact hi
  · obtain ⟨y, hy⟩ := hb.leaf
    rw [hcur, Tree.node.injEq] at hy
    exact absurd hy (by rintro ⟨rfl, -, rfl⟩; simp at hne)

lemma At.ne_nil (ha : At W root iter) : iter.cur ≠ .nil := by
  cases ha with
  | top hne => exact hne
  | left _ _ hne _ => exact hne
  | right _ _ hne _ => exact hne

lemma and_mask_left (hz : Holds j false value z) :
    value &&& 2 ^ j = 0 := by
  unfold Holds at hz
  rw [Nat.and_two_pow, hz, if_neg (by decide), Nat.testBit_mul_two_pow]
  simp

lemma two_pow_ne_max (hW : 1 < W) (hj : j < W) : 2 ^ j ≠ 2 ^ W - 1 := by
  intro heq
  have hle : 2 ^ j ≤ 2 ^ (W - 1) := Nat.pow_le_pow_right two_pos (by omega)
  have hW1 : 2 ^ W = 2 * 2 ^ (W - 1) := by rw [← pow_succ']; congr 1; omega
  have hge : 2 ^ 1 ≤ 2 ^ (W - 1) := Nat.pow_le_pow_right two_pos (by omega)
  omega

lemma up_mask (hW : 1 < W) {c : Tree}
    (hi : Inner W iter j) (hcur : iter.cur = .node l x t) (hc : c = l ∨ c = t)
    (hne : c ≠ .nil) (hdown : iter.down W c = some m) :
    Iter.up W ⟨m.1, value, m.2, c, path⟩ = (iter.mask,
      if iter.sizeLevel = 0 ∧ value &&& iter.mask ≠ 0 then value ^^^ iter.mask else value,
      iter.sizeLevel) := by
  have hlt := hi.lt
  cases j with
  | succ j =>
    rw [down_succ hi.mask] at hdown
    obtain rfl := Option.some.inj hdown
    have hmax := two_pow_ne_max hW (show j < W by omega)
    have hmod : 2 ^ j * 2 % 2 ^ W = iter.mask := by
      rw [hi.mask, ← pow_succ]
      exact Nat.mod_eq_of_lt (Nat.pow_lt_pow_right (by decide) hlt)
    by_cases hs : iter.sizeLevel = 0
    · simp [Iter.up, hmax, hs, hmod]
    · simp [Iter.up, hmax, hs, hmod]
  | zero =>
    have hm : iter.mask = 1 := hi.mask
    by_cases hs : iter.sizeLevel = 0
    · rw [down_zero hi.mask hs] at hdown
      obtain rfl := Option.some.inj hdown
      simp [Iter.up, hs, hm]
    · obtain ⟨y, rfl⟩ := hi.child_leaf hcur hs hc hne
      rw [down_leaf hi.mask hs] at hdown
      obtain rfl := Option.some.inj hdown
      simp [Iter.up, hs, hm]

lemma up_left (hW : 1 < W)
    (hi : Inner W iter j) (hcur : iter.cur = .node l x t) (hne : l ≠ .nil)
    (hdown : iter.down W l = some m) :
    Iter.up W ⟨m.1, iter.value, m.2, l, path⟩ = (iter.mask, iter.value, iter.sizeLevel) := by
  rw [up_mask hW hi hcur (.inl rfl) hne hdown]
  by_cases hs : iter.sizeLevel = 0
  · have hx := hi.holds x (by rw [hcur]; exact mem_top l t x)
    simp only [hs, ne_eq, not_true, decide_false] at hx
    rw [hi.mask, and_mask_left hx]
    simp
  · simp [hs]

lemma up_right (hW : 1 < W)
    (hi : Inner W iter j) (hcur : iter.cur = .node l x t) (hne : t ≠ .nil)
    (hdown : iter.down W t = some m) :
    Iter.up W ⟨m.1, iter.rightValue, m.2, t, path⟩ = (iter.mask, iter.value, iter.sizeLevel) := by
  rw [up_mask hW hi hcur (.inr rfl) hne hdown]
  unfold Iter.rightValue
  by_cases hs : iter.sizeLevel = 0
  · have hx := hi.holds x (by rw [hcur]; exact mem_top l t x)
    simp only [hs, ne_eq, not_true, decide_false] at hx
    have hand := and_mask_left hx
    have hbit : (iter.value ||| 2 ^ j) &&& 2 ^ j = 2 ^ j := by
      rw [Nat.and_or_distrib_right, hand, Nat.and_self, Nat.zero_or]
    have hxor : (iter.value ||| 2 ^ j) ^^^ 2 ^ j = iter.value := by
      rw [or_mask hx]
      have hv : iter.value ^^^ 2 ^ j = iter.value + 2 ^ j := by
        rw [← or_mask hx]
        refine Nat.eq_of_testBit_eq fun i => ?_
        have hi' : (iter.value &&& 2 ^ j).testBit i = false := by rw [hand]; simp
        rw [Nat.testBit_and] at hi'
        rw [Nat.testBit_xor, Nat.testBit_or]
        cases h1 : iter.value.testBit i <;> cases h2 : (2 ^ j).testBit i <;> simp_all
      rw [← hv, Nat.xor_assoc, Nat.xor_self, Nat.xor_zero]
    simp only [hs, ne_eq, not_true, if_false, hi.mask, hbit, hxor]
    simp
  · simp [hs]

end LinuxKernel.PrioTree
