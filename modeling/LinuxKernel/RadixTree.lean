import LinuxKernel.SlotTree
import LinuxKernel.Word

/-!
# `lib/radix-tree.c`

The tree of `struct radix_tree_node`, for any `RADIX_TREE_MAP_SHIFT` and both sizes of
`unsigned long`. An item is a non-NULL pointer whose low bit is clear. A `BUG_ON` that fires and a
NULL or item pointer taken for a node are `none`.

Node allocation always succeeds: it hands out the object freed last, or a constructed one. The
callback of `call_rcu` is run at once. `path[]` is the list of its entries, `pathp` being the head,
and a node it points to is read back into the tree by `plugAll`.
-/

namespace LinuxKernel.Lib

def EEXIST : ℤ := 17

/-- `struct radix_tree_node` without its slots. -/
structure RadixNodeInfo (shift : ℕ) where
  height : ℕ
  count : ℕ
  tags : Fin 2 → Fin (2 ^ shift) → Bool

abbrev RadixSlot (shift : ℕ) (α : Type*) := SlotTree (RadixNodeInfo shift) α (2 ^ shift)

abbrev RadixPath (shift : ℕ) (α : Type*) := List (SlotFrame (RadixNodeInfo shift) α (2 ^ shift))

structure RadixTreeNode (shift : ℕ) (α : Type*) where
  info : RadixNodeInfo shift
  slots : Fin (2 ^ shift) → RadixSlot shift α

/-- `struct radix_tree_root`: `tags` are the bits of `gfp_mask` above `__GFP_BITS_SHIFT`, and
`indirect` is the low bit of the pointer `rnode`. -/
structure RadixTreeRoot (shift : ℕ) (α : Type*) where
  height : ℕ
  tags : Fin 2 → Bool
  rnode : RadixSlot shift α
  indirect : Bool

/-- A root and the objects freed to `radix_tree_node_cachep`. -/
structure RadixTree (shift : ℕ) (α : Type*) where
  root : RadixTreeRoot shift α
  slab : List (RadixTreeNode shift α)

variable {α : Type*} {shift : ℕ}

def tagSet (node : RadixNodeInfo shift) (tag : Fin 2) (offset : Fin (2 ^ shift)) :
    RadixNodeInfo shift :=
  { node with tags := Function.update node.tags tag (Function.update (node.tags tag) offset true) }

def tagClear (node : RadixNodeInfo shift) (tag : Fin 2) (offset : Fin (2 ^ shift)) :
    RadixNodeInfo shift :=
  { node with tags := Function.update node.tags tag (Function.update (node.tags tag) offset false) }

def anyTagSet (node : RadixNodeInfo shift) (tag : Fin 2) : Bool :=
  decide (∃ offset, node.tags tag offset = true)

def radixTreeNodeCtor : RadixTreeNode shift α := ⟨⟨0, 0, fun _ _ => false⟩, fun _ => .null⟩

def radixTreeNodeAlloc :
    List (RadixTreeNode shift α) → RadixTreeNode shift α × List (RadixTreeNode shift α)
  | [] => (radixTreeNodeCtor, [])
  | node :: slab => (node, slab)

def radixTreeNodeRcuFree (node : RadixTreeNode shift α) : RadixTreeNode shift α :=
  ⟨{ tagClear (tagClear node.info 0 0) 1 0 with count := 0 }, Function.update node.slots 0 .null⟩

/-- `radix_tree_node_free`, of the node `to_free` if there is one. -/
def radixTreeNodeFree (toFree : Option (RadixTreeNode shift α))
    (slab : List (RadixTreeNode shift α)) : List (RadixTreeNode shift α) :=
  match toFree with
  | none => slab
  | some node => radixTreeNodeRcuFree node :: slab

def radixTreeInit : RadixTree shift α := ⟨⟨0, fun _ => false, .null, false⟩, []⟩

section

variable (L : LongSize)

/-- `height_to_maxindex[height]`, filled by `__maxindex`. -/
def radixTreeMaxindex (shift height : ℕ) : ℕ :=
  let width := height * shift
  let s : ℤ := L.bits - width
  if s < 0 then 2 ^ L.bits - 1
  else if L.bits ≤ s then 0
  else (2 ^ L.bits - 1) >>> s.toNat

/-- `RADIX_TREE_MAX_PATH`: `height_to_maxindex` has one entry more. -/
def radixTreeMaxPath (shift : ℕ) : ℕ := (L.bits + shift - 1) / shift

/-- `while (index > radix_tree_maxindex(height)) height++;` -/
def extendHeight (shift index height : ℕ) : Option ℕ :=
  if height ≤ radixTreeMaxPath L shift then
    if radixTreeMaxindex L shift height < index then extendHeight shift index (height + 1)
    else some height
  else none
termination_by radixTreeMaxPath L shift + 1 - height

/-- One pass of the loop of `radix_tree_extend`. -/
def extendOnce (t : RadixTree shift α) : RadixTree shift α :=
  let (node, slab) := radixTreeNodeAlloc t.slab
  let newheight := t.root.height + 1
  let tags := fun tag =>
    if t.root.tags tag then Function.update (node.info.tags tag) 0 true else node.info.tags tag
  let slots := Function.update node.slots 0 t.root.rnode
  ⟨{ t.root with height := newheight, rnode := .node ⟨newheight, 1, tags⟩ slots, indirect := true },
    slab⟩

def extendLoop (height : ℕ) (t : RadixTree shift α) : RadixTree shift α :=
  if (extendOnce t).root.height < height then extendLoop height (extendOnce t) else extendOnce t
termination_by height - t.root.height
decreasing_by
  have : (extendOnce t).root.height = t.root.height + 1 := rfl
  omega

def radixTreeExtend (t : RadixTree shift α) (index : ℕ) : Option (RadixTree shift α) :=
  match extendHeight L shift index (t.root.height + 1) with
  | none => none
  | some height =>
    if t.root.rnode.isNull then some { t with root := { t.root with height := height } }
    else some (extendLoop height t)

/-- The variables of the loop of `radix_tree_insert`: `node` and `offset` are the head of `path`. -/
structure InsertState (shift : ℕ) (α : Type*) where
  path : RadixPath shift α
  slot : RadixSlot shift α
  indirect : Bool
  slab : List (RadixTreeNode shift α)

/-- `node->count++`, for the head of a path. -/
def countUp : RadixPath shift α → RadixPath shift α
  | [] => []
  | f :: path => { f with payload := { f.payload with count := f.payload.count + 1 } } :: path

/-- "Have to add a child node." -/
def insertChild (height : ℕ) (s : InsertState shift α) : InsertState shift α :=
  let (node, slab) := radixTreeNodeAlloc s.slab
  ⟨countUp s.path, .node { node.info with height := height } node.slots,
    s.indirect || s.path.isEmpty, slab⟩

def insertLoop (index : ℕ) : ℕ → InsertState shift α → Option (InsertState shift α)
  | 0, s => some s
  | height + 1, s =>
    let s := if s.slot.isNull then insertChild (height + 1) s else s
    match s.slot with
    | .node info slots =>
      let offset := digit shift height index
      insertLoop index height
        { s with path := ⟨info, slots, offset⟩ :: s.path, slot := slots offset }
    | _ => none

/-- The end of `radix_tree_insert`, with `root->rnode` read back from the path. -/
def insertItem (root : RadixTreeRoot shift α) (s : InsertState shift α) (item : α) :
    Option (ℤ × RadixTree shift α) :=
  if ¬ s.slot.isNull then
    some (-EEXIST, ⟨{ root with rnode := plugAll s.path s.slot, indirect := s.indirect }, s.slab⟩)
  else
    let rnode := plugAll (countUp s.path) (.leaf item)
    match s.path with
    | [] =>
      if root.tags 0 || root.tags 1 then none
      else some (0, ⟨{ root with rnode := rnode, indirect := false }, s.slab⟩)
    | node :: _ =>
      if node.payload.tags 0 node.offset || node.payload.tags 1 node.offset then none
      else some (0, ⟨{ root with rnode := rnode, indirect := s.indirect }, s.slab⟩)

def radixTreeInsert (t : RadixTree shift α) (index : ℕ) (item : α) :
    Option (ℤ × RadixTree shift α) :=
  (if radixTreeMaxindex L shift t.root.height < index then radixTreeExtend L t index
    else some t).bind fun t =>
  (insertLoop index t.root.height ⟨[], t.root.rnode, t.root.indirect, t.slab⟩).bind fun s =>
  insertItem t.root s item

def lookupLoop (index : ℕ) : ℕ → RadixSlot shift α → Option (RadixSlot shift α)
  | height + 1, .node _ slots =>
    let node := slots (digit shift height index)
    if node.isNull then some .null
    else if height = 0 then some node
    else lookupLoop index height node
  | _, _ => none

def radixTreeLookup (root : RadixTreeRoot shift α) (index : ℕ) : Option (RadixSlot shift α) :=
  if root.rnode.isNull then some .null
  else if ¬ root.indirect then if 0 < index then some .null else some root.rnode
  else match root.rnode with
    | .node info _ =>
      if radixTreeMaxindex L shift info.height < index then some .null
      else lookupLoop index info.height root.rnode
    | _ => none

/-- The loop of `radix_tree_tag_set`: the tree below `slot` as it leaves it, and the last `slot`. -/
def tagSetLoop (index : ℕ) (tag : Fin 2) :
    ℕ → RadixSlot shift α → Option (RadixSlot shift α × RadixSlot shift α)
  | 0, slot => some (slot, slot)
  | height + 1, .node info slots =>
    let offset := digit shift height index
    let info := if info.tags tag offset then info else tagSet info tag offset
    if (slots offset).isNull then none
    else match tagSetLoop index tag height (slots offset) with
      | none => none
      | some (child, slot) => some (.node info (Function.update slots offset child), slot)
  | _ + 1, _ => none

def radixTreeTagSet (root : RadixTreeRoot shift α) (index : ℕ) (tag : Fin 2) :
    Option (RadixSlot shift α × RadixTreeRoot shift α) :=
  if radixTreeMaxindex L shift root.height < index then none
  else match tagSetLoop index tag root.height root.rnode with
    | none => none
    | some (rnode, slot) =>
      let tags := if ¬ slot.isNull ∧ ¬ root.tags tag then Function.update root.tags tag true
        else root.tags
      some (slot, { root with rnode := rnode, tags := tags })

/-- The way down of `radix_tree_tag_clear` and `radix_tree_delete`. -/
def pathDown (index : ℕ) :
    ℕ → RadixPath shift α → RadixSlot shift α → Option (RadixPath shift α × RadixSlot shift α)
  | 0, path, slot => some (path, slot)
  | _ + 1, path, .null => some (path, .null)
  | height + 1, path, .node info slots =>
    let offset := digit shift height index
    pathDown index height (⟨info, slots, offset⟩ :: path) (slots offset)
  | _ + 1, _, .leaf _ => none

/-- The way up of `radix_tree_tag_clear` over the tree `slot` below the path: the whole tree, and
whether it came to the root. -/
def tagClearLoop (tag : Fin 2) : RadixPath shift α → RadixSlot shift α → RadixSlot shift α × Bool
  | [], slot => (slot, true)
  | f :: path, slot =>
    if ¬ f.payload.tags tag f.offset then (plugAll (f :: path) slot, false)
    else
      let node := tagClear f.payload tag f.offset
      let f := { f with payload := node }
      if anyTagSet node tag then (plugAll (f :: path) slot, false)
      else tagClearLoop tag path (f.plug slot)

def radixTreeTagClear (root : RadixTreeRoot shift α) (index : ℕ) (tag : Fin 2) :
    Option (RadixSlot shift α × RadixTreeRoot shift α) :=
  if radixTreeMaxindex L shift root.height < index then some (.null, root)
  else match pathDown index root.height [] root.rnode with
    | none => none
    | some (path, slot) =>
      if slot.isNull then some (slot, root)
      else
        let (rnode, top) := tagClearLoop tag path slot
        let tags := if top ∧ root.tags tag then Function.update root.tags tag false else root.tags
        some (slot, { root with rnode := rnode, tags := tags })

/-- The loop of `radix_tree_tag_get`; `saw_unset_tag` is not read. -/
def tagGetLoop (index : ℕ) (tag : Fin 2) : ℕ → RadixSlot shift α → Option Bool
  | _, .null => some false
  | 1, .node info _ => some (info.tags tag (digit shift 0 index))
  | height + 2, .node _ slots => tagGetLoop index tag (height + 1)
      (slots (digit shift (height + 1) index))
  | _, _ => none

def radixTreeTagGet (root : RadixTreeRoot shift α) (index : ℕ) (tag : Fin 2) : Option Bool :=
  if ¬ root.tags tag then some false
  else if root.rnode.isNull then some false
  else if ¬ root.indirect then some (index = 0)
  else match root.rnode with
    | .node info _ =>
      if radixTreeMaxindex L shift info.height < index then some false
      else tagGetLoop index tag info.height root.rnode
    | _ => none

def radixTreeShrink (t : RadixTree shift α) : Option (RadixTree shift α) :=
  if 0 < t.root.height then
    if ¬ t.root.indirect then none
    else match t.root.rnode with
      | .node info slots =>
        if info.count ≠ 1 then some t
        else if (slots 0).isNull then some t
        else
          let indirect := decide (1 < t.root.height)
          radixTreeShrink ⟨⟨t.root.height - 1, t.root.tags, slots 0, indirect⟩,
            radixTreeNodeFree (some ⟨info, slots⟩) t.slab⟩
      | _ => none
  else some t
termination_by t.root.height

/-- "Now free the nodes we do not need anymore". -/
def deleteLoop (root : RadixTreeRoot shift α) :
    RadixPath shift α → Option (RadixTreeNode shift α) → List (RadixTreeNode shift α) →
      Option (RadixTree shift α)
  | [], toFree, slab =>
    some ⟨⟨0, fun _ => false, .null, false⟩, radixTreeNodeFree toFree slab⟩
  | f :: path, toFree, slab =>
    let info := { f.payload with count := f.payload.count - 1 }
    let slots := Function.update f.slots f.offset .null
    let slab := radixTreeNodeFree toFree slab
    if info.count ≠ 0 then
      let t := ⟨{ root with rnode := plugAll path (.node info slots) }, slab⟩
      if path.isEmpty then radixTreeShrink t else some t
    else deleteLoop root path (some ⟨info, slots⟩) slab

/-- "Clear all tags associated with the just-deleted item", for one tag. -/
def deleteTag (root : RadixTreeRoot shift α) (index : ℕ) (tag : Fin 2) :
    Option (RadixTreeRoot shift α) :=
  match pathDown index root.height [] root.rnode with
  | some (f :: _, _) =>
    if f.payload.tags tag f.offset then
      match radixTreeTagClear L root index tag with
      | none => none
      | some (_, root) => some root
    else some root
  | _ => none

def radixTreeDelete (t : RadixTree shift α) (index : ℕ) :
    Option (RadixSlot shift α × RadixTree shift α) :=
  if radixTreeMaxindex L shift t.root.height < index then some (.null, t)
  else if t.root.height = 0 then
    some (t.root.rnode, ⟨⟨0, fun _ => false, .null, false⟩, t.slab⟩)
  else match pathDown index t.root.height [] t.root.rnode with
    | none => none
    | some (_, slot) =>
      if slot.isNull then some (slot, t)
      else
        (deleteTag L t.root index 0).bind fun root =>
        (deleteTag L root index 1).bind fun root =>
        -- the entries of `path[]` after the tags are cleared
        (pathDown index root.height [] root.rnode).bind fun (path, _) =>
        (deleteLoop root path none t.slab).bind fun t =>
        some (slot, t)

def radixTreeTagged (root : RadixTreeRoot shift α) (tag : Fin 2) : Bool := root.tags tag

end

end LinuxKernel.Lib
