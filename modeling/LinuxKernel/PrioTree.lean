import LinuxKernel.Loop

/-!
# `lib/prio_tree.c`: radix priority search trees

`W` is `BITS_PER_LONG`. A node is the interval that `get_index` reads from it: a second node with
the same interval is not stored, so the interval names the node. A node in a tree is the subtree
below it and its parents, the nearest first. `prio_tree_remove` hands the place of the node it
removes to its child, that child's place to its child and so on down, which is `removeTop`.

`none` is a `BUG_ON` that fires.
-/

namespace LinuxKernel.PrioTree

/-- `radix_index` and `heap_index`. -/
structure Interval where
  start : ℕ
  last : ℕ
  le : start ≤ last
deriving DecidableEq

inductive Tree where
  | nil
  | node (left : Tree) (x : Interval) (right : Tree)

def Tree.isNil : Tree → Bool
  | nil => true
  | _ => false

/-- The nodes, a node before its left and right subtree. -/
def Tree.toList : Tree → List Interval
  | nil => []
  | node l x r => x :: (l.toList ++ r.toList)

def Tree.size : Tree → ℕ
  | nil => 0
  | node l _ r => l.size + r.size + 1

structure Root where
  tree : Tree
  indexBits : ℕ

def Root.init : Root := ⟨.nil, 1⟩

def maxindex (bits : ℕ) : ℕ := 2 ^ bits - 1

/-- Whether the node goes to the right at a level: `index & mask`, with the size as index where
`size_flag` is set. -/
def goesRight (mask : ℕ) (sizeFlag : Bool) (x : Interval) : Bool :=
  decide ((if sizeFlag then x.last - x.start else x.start) &&& mask ≠ 0)

/-- The mask and `size_flag` of the next level. -/
def nextMask (W mask : ℕ) (sizeFlag : Bool) : ℕ × Bool :=
  if mask / 2 = 0 then (2 ^ (W - 1), true) else (mask / 2, sizeFlag)

/-- The loop of `prio_tree_insert`: the node of a smaller interval is replaced and goes on down.
The flag says whether a stored node is returned; `none` is the `BUG` after the loop. -/
def insertLoop (W : ℕ) : ℕ → Bool → Interval → Tree → Option (Bool × Tree)
  | _, _, x, .nil => some (false, .node .nil x .nil)
  | mask, sizeFlag, x, .node l y r =>
    if mask = 0 then none
    else if y = x then some (true, .node l y r)
    else
      let swap := y.last < x.last ∨ y.last = x.last ∧ y.start > x.start
      let top := if swap then x else y
      let next := if swap then y else x
      let m := nextMask W mask sizeFlag
      if goesRight mask sizeFlag next then
        (insertLoop W m.1 m.2 next r).map fun res => (res.1, .node l top res.2)
      else (insertLoop W m.1 m.2 next l).map fun res => (res.1, .node res.2 top r)

def removeTop : Tree → Tree
  | .nil => .nil
  | .node .nil _ .nil => .nil
  | .node .nil _ (.node l y r) => .node .nil y (removeTop (.node l y r))
  | .node (.node l y r) _ .nil => .node (removeTop (.node l y r)) y .nil
  | .node (.node l y r) _ (.node l' y' r') =>
    if y.last ≥ y'.last then .node (removeTop (.node l y r)) y (.node l' y' r')
    else .node (.node l y r) y' (removeTop (.node l' y' r'))

/-- The tree without the node `x`, which is in it. -/
def removeNode (x : Interval) : Tree → Tree
  | .nil => .nil
  | .node l y r =>
    if y = x then removeTop (.node l y r) else .node (removeNode x l) y (removeNode x r)

/-- `prio_tree_remove`; the last node resets the root. -/
def prioTreeRemove (x : Interval) (root : Root) : Root :=
  match removeNode x root.tree with
  | .nil => Root.init
  | t => { root with tree := t }

/-- The loop of `prio_tree_expand`: the nodes taken from the top, the first one first, and the
root. -/
def expandLoop (heap : ℕ) : ℕ → Root → List Interval → List Interval × Root
  | 0, root, taken => (taken, root)
  | fuel + 1, root, taken =>
    if heap > maxindex root.indexBits then
      let root := { root with indexBits := root.indexBits + 1 }
      match root.tree with
      | .nil => expandLoop heap fuel root taken
      | .node _ y _ => expandLoop heap fuel (prioTreeRemove y root) (taken ++ [y])
    else (taken, root)

/-- The nodes one below the other on the left, above a tree. -/
def leftChain (t : Tree) : List Interval → Tree
  | [] => t
  | x :: xs => .node (leftChain t xs) x .nil

/-- `prio_tree_expand`. The loop has no more rounds than there are bits, for each node that is
taken. -/
def prioTreeExpand (W : ℕ) (x : Interval) (root : Root) : Root :=
  let root' :=
    if x.last > maxindex root.indexBits then { root with indexBits := root.indexBits + 1 } else root
  let (taken, root') := expandLoop x.last ((root.tree.size + 1) * (W + 1)) root' []
  { root' with tree := leftChain root'.tree (x :: taken) }

/-- `prio_tree_insert`, with the flag of `insertLoop`. -/
def prioTreeInsert (W : ℕ) (x : Interval) (root : Root) : Option (Bool × Root) :=
  if root.tree.isNil ∨ x.last > maxindex root.indexBits then
    some (false, prioTreeExpand W x root)
  else
    (insertLoop W (2 ^ (root.indexBits - 1)) false x root.tree).map fun res =>
      (res.1, { root with tree := res.2 })

/-- A parent, left by its left or its right child. -/
inductive Frame where
  | left (x : Interval) (right : Tree)
  | right (left : Tree) (x : Interval)

/-- `struct prio_tree_iter` at a node. -/
structure Iter where
  mask : ℕ
  value : ℕ
  sizeLevel : ℕ
  cur : Tree
  path : List Frame

/-- `mask` and `size_level` below `iter`, at the node `cur`. -/
def Iter.down (W : ℕ) (iter : Iter) (cur : Tree) : Option (ℕ × ℕ) :=
  if iter.mask / 2 ≠ 0 then
    some (iter.mask / 2, if iter.sizeLevel ≠ 0 then iter.sizeLevel + 1 else 0)
  else if iter.sizeLevel ≠ 0 then
    match cur with
    | .node .nil _ .nil => some (2 ^ W - 1, iter.sizeLevel + 1)
    | _ => none
  else some (2 ^ (W - 1), 1)

/-- `prio_tree_left`; `r` is `iter->r_index`. -/
def prioTreeLeft (W r : ℕ) (iter : Iter) : Option (Option Iter) :=
  match iter.cur with
  | .node (.node l y s) x t =>
    if r ≤ y.last then
      match iter.down W (.node l y s) with
      | none => none
      | some (mask, sizeLevel) =>
        some (some ⟨mask, iter.value, sizeLevel, .node l y s, .left x t :: iter.path⟩)
    else some none
  | _ => some none

/-- `prio_tree_right`; `h` is `iter->h_index`. -/
def prioTreeRight (W r h : ℕ) (iter : Iter) : Option (Option Iter) :=
  match iter.cur with
  | .node l x (.node s y t) =>
    let value := if iter.sizeLevel ≠ 0 then iter.value else iter.value ||| iter.mask
    if h < value then some none
    else if r ≤ y.last then
      match iter.down W (.node s y t) with
      | none => none
      | some (mask, sizeLevel) =>
        some (some ⟨mask, value, sizeLevel, .node s y t, .right l x :: iter.path⟩)
    else some none
  | _ => some none

/-- `mask`, `value` and `size_level` after `prio_tree_parent`. -/
def Iter.up (W : ℕ) (iter : Iter) : ℕ × ℕ × ℕ :=
  let mask :=
    if iter.mask = 2 ^ W - 1 then 1 else if iter.sizeLevel = 1 then 1 else iter.mask * 2 % 2 ^ W
  let sizeLevel := iter.sizeLevel - 1
  (mask, if sizeLevel = 0 ∧ iter.value &&& mask ≠ 0 then iter.value ^^^ mask else iter.value,
    sizeLevel)

/-- Upwards while the node is a right child, and once more; `none` at the root. -/
def climb (W : ℕ) : Iter → List Frame → Option Iter
  | _, [] => none
  | iter, .right l x :: path =>
    let u := iter.up W
    climb W ⟨u.1, u.2.1, u.2.2, .node l x iter.cur, path⟩ path
  | iter, .left x t :: path =>
    let u := iter.up W
    some ⟨u.1, u.2.1, u.2.2, .node iter.cur x t, path⟩

def overlap (r h : ℕ) : Tree → Bool
  | .node _ x _ => decide (h ≥ x.start ∧ r ≤ x.last)
  | .nil => false

/-- The loop of `prio_tree_first`, and how it ends: in a `BUG_ON`, at a node or with NULL. -/
def firstPass (W r h : ℕ) (iter : Iter) : Pass Iter (Option (Option Iter)) :=
  if overlap r h iter.cur then .leave (some (some iter))
  else
    match prioTreeLeft W r iter with
    | none => .leave none
    | some (some iter) => .again iter
    | some none =>
      match prioTreeRight W r h iter with
      | none => .leave none
      | some (some iter) => .again iter
      | some none => .leave (some none)

/-- `prio_tree_first` from a fresh iterator. -/
def prioTreeFirst (W r h : ℕ) (root : Root) : Option (Option (Option Iter)) :=
  match root.tree with
  | .nil => some (some none)
  | .node l x t =>
    if r > x.last then some (some none)
    else Pass.run (firstPass W r h) (root.tree.size + 1)
      ⟨2 ^ (root.indexBits - 1), 0, 0, .node l x t, []⟩

/-- Where `prio_tree_next` is: at `repeat:` or in the loop with `prio_tree_right`. -/
inductive Phase where
  | left
  | right

/-- One round of the loops of `prio_tree_next`. -/
def nextPass (W r h : ℕ) : Phase × Iter → Pass (Phase × Iter) (Option (Option Iter))
  | (.left, iter) =>
    match prioTreeLeft W r iter with
    | none => .leave none
    | some (some iter) =>
      if overlap r h iter.cur then .leave (some (some iter)) else .again (.left, iter)
    | some none => .again (.right, iter)
  | (.right, iter) =>
    match prioTreeRight W r h iter with
    | none => .leave none
    | some (some iter) =>
      if overlap r h iter.cur then .leave (some (some iter)) else .again (.left, iter)
    | some none =>
      match climb W iter iter.path with
      | none => .leave (some none)
      | some iter => .again (.right, iter)

def prioTreeNext (W r h fuel : ℕ) (iter : Iter) : Option (Option (Option Iter)) :=
  Pass.run (nextPass W r h) fuel (.left, iter)

def collect (W r h fuel : ℕ) : ℕ → Iter → Option (List Interval)
  | 0, _ => none
  | n + 1, iter =>
    match prioTreeNext W r h fuel iter with
    | some (some none) => some []
    | some (some (some iter)) =>
      match iter.cur, collect W r h fuel n iter with
      | .node _ x _, some xs => some (x :: xs)
      | _, _ => none
    | _ => none

def iterate (W r h fuel : ℕ) (root : Root) : Option (List Interval) :=
  match prioTreeFirst W r h root with
  | some (some none) => some []
  | some (some (some iter)) =>
    match iter.cur, collect W r h fuel fuel iter with
    | .node _ x _, some xs => some (x :: xs)
    | _, _ => none
  | _ => none

end LinuxKernel.PrioTree
