import LinuxKernel.RadixTree
import LinuxKernel.Scan

/-!
# `radix_tree_gang_lookup` and `radix_tree_gang_lookup_tag`

`__lookup` and `__lookup_tag` put pointers to slots into `results`, and the loop around them reads
the slots and keeps the items that are still there. Nothing changes the tree in between, so
`results` are the contents of the slots here.
-/

namespace LinuxKernel.Lib

variable {α : Type*} {shift : ℕ} (L : LongSize)

/-- `index &= ~((1UL << sh) - 1); index += 1UL << sh;` -/
def nextBlock (sh index : ℕ) : ℕ := addMod L.bits (index - index % 2 ^ sh) (2 ^ sh)

/-- The loop `for (;;)` over the offsets of a node: the offset it breaks at, with the index there,
or the index it goes out with. -/
def skipLoop (hit : Fin (2 ^ shift) → Bool) (sh : ℕ) (i : Fin (2 ^ shift)) (index : ℕ) :
    Except ℕ (Fin (2 ^ shift) × ℕ) :=
  if hit i then .ok (i, index)
  else if nextBlock L sh index = 0 then .error 0
  else if h : i.val + 1 < 2 ^ shift then skipLoop hit sh ⟨i + 1, h⟩ (nextBlock L sh index)
  else .error (nextBlock L sh index)
termination_by 2 ^ shift - i.val

/-- "Bottom level: grab some items". -/
def grabLoop (hit : Fin (2 ^ shift) → Bool) (slots : Fin (2 ^ shift) → RadixSlot shift α)
    (maxItems : ℕ) (i : Fin (2 ^ shift)) (index nrFound : ℕ) : List (RadixSlot shift α) × ℕ :=
  if hit i ∧ nrFound + 1 = maxItems then ([slots i], addMod L.bits index 1)
  else
    let r := if h : i.val + 1 < 2 ^ shift then
        grabLoop hit slots maxItems ⟨i + 1, h⟩ (addMod L.bits index 1)
          (if hit i then nrFound + 1 else nrFound)
      else ([], addMod L.bits index 1)
    (if hit i then slots i :: r.1 else r.1, r.2)
termination_by 2 ^ shift - i.val

/-- `__lookup`, with the height of the node: the results and `*next_index`. -/
def lookupNode (maxItems : ℕ) : ℕ → RadixSlot shift α → ℕ → List (RadixSlot shift α) × ℕ
  | 1, .node _ slots, index =>
    grabLoop L (fun i => !(slots i).isNull) slots maxItems (digit shift 0 index) index 0
  | h + 2, .node _ slots, index =>
    match skipLoop L (fun i => !(slots i).isNull) (shift * (h + 1))
        (digit shift (h + 1) index) index with
    | .error index => ([], index)
    | .ok (i, index) => lookupNode maxItems (h + 1) (slots i) index
  | _, _, index => ([], index)

/-- `__lookup_tag`, with the height of the node. -/
def lookupTagNode (tag : Fin 2) (maxItems : ℕ) :
    ℕ → RadixSlot shift α → ℕ → List (RadixSlot shift α) × ℕ
  | 1, .node info slots, index =>
    match skipLoop L (info.tags tag) (shift * 0) (digit shift 0 index) index with
    | .error index => ([], index)
    | .ok (_, index) =>
      grabLoop L (fun j => info.tags tag j && !(slots j).isNull) slots maxItems
        (digit shift 0 index) index 0
  | h + 2, .node info slots, index =>
    match skipLoop L (info.tags tag) (shift * (h + 1)) (digit shift (h + 1) index) index with
    | .error index => ([], index)
    | .ok (i, index) => lookupTagNode tag maxItems (h + 1) (slots i) index
  | _, _, index => ([], index)

/-- What the two functions share: `lookup` is `__lookup` or `__lookup_tag`, for a number of items, a
height, a node and an index. -/
def gangLookup (lookup : ℕ → ℕ → RadixSlot shift α → ℕ → List (RadixSlot shift α) × ℕ)
    (root : RadixTreeRoot shift α) (firstIndex maxItems : ℕ) : Option (List (RadixSlot shift α)) :=
  if root.rnode.isNull then some []
  else if ¬ root.indirect then if 0 < firstIndex then some [] else some [root.rnode]
  else match root.rnode with
    | .node info slots =>
      let round := fun curIndex lim =>
        let r := lookup lim info.height (.node info slots) curIndex
        (r.1.filter fun slot => !slot.isNull, r.2)
      Pass.run (scanPass round (radixTreeMaxindex L shift info.height + 1) maxItems)
        (2 ^ L.bits + 1) ([], firstIndex)
    | _ => none

/-- `results` up to the number returned. -/
def radixTreeGangLookup (root : RadixTreeRoot shift α) (firstIndex maxItems : ℕ) :
    Option (List (RadixSlot shift α)) :=
  gangLookup L (lookupNode L) root firstIndex maxItems

def radixTreeGangLookupTag (root : RadixTreeRoot shift α) (firstIndex maxItems : ℕ) (tag : Fin 2) :
    Option (List (RadixSlot shift α)) :=
  if root.tags tag then gangLookup L (lookupTagNode L tag) root firstIndex maxItems
  else some []

end LinuxKernel.Lib
