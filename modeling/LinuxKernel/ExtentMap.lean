import LinuxKernel.Word

/-!
# `fs/btrfs/extent_map.c`

The maps of a tree in a binary search tree. `rb_insert_color` and `rb_erase` turn the tree into some
tree with the same maps in the same order, less the one erased: which one is an argument
(`Balance`). A place in the tree is the list of the maps before it, the nearest first, and the list
of the maps from it on, so `rb_next` and `rb_prev` move between the two.

The reference counts, `in_tree` and the lock are left out.
-/

namespace LinuxKernel.Btrfs

def EXTENT_MAP_LAST_BYTE : ℕ := 2 ^ 64 - 4

def EXTENT_MAP_HOLE : ℕ := 2 ^ 64 - 3

def EXTENT_MAP_INLINE : ℕ := 2 ^ 64 - 2

def EXTENT_MAP_DELALLOC : ℕ := 2 ^ 64 - 1

def EEXIST : ℤ := 17

/-- `flags`: two of its bits, and the rest. -/
structure Flags where
  pinned : Bool
  compressed : Bool
  rest : ℕ
deriving DecidableEq

structure ExtentMap where
  start : ℕ
  len : ℕ
  blockStart : ℕ
  blockLen : ℕ
  flags : Flags
  bdev : ℕ
deriving DecidableEq

def rangeEnd (start len : ℕ) : ℕ :=
  if addMod 64 start len < start then 2 ^ 64 - 1 else addMod 64 start len

def extentMapEnd (em : ExtentMap) : ℕ := rangeEnd em.start em.len

def extentMapBlockEnd (em : ExtentMap) : ℕ := rangeEnd em.blockStart em.blockLen

inductive Tree where
  | nil
  | node (left : Tree) (em : ExtentMap) (right : Tree)

def Tree.toList : Tree → List ExtentMap
  | .nil => []
  | .node l em r => l.toList ++ em :: r.toList

/-- What rebalancing makes of the maps in their order. -/
structure Balance where
  tree : List ExtentMap → Tree
  toList_tree : ∀ l, (tree l).toList = l

/-- Where a descent ends: at a map, or between the maps before and after, with the map visited last
on the left or on the right of the place. -/
inductive Descent where
  | hit (before : List ExtentMap) (em : ExtentMap) (after : List ExtentMap)
  | miss (before after : List ExtentMap) (lastLeft : Bool)

/-- The loop `while (n)` of `__tree_search`, and of `tree_insert`. -/
def descend (offset : ℕ) : Tree → List ExtentMap → List ExtentMap → Bool → Descent
  | .nil, before, after, lastLeft => .miss before after lastLeft
  | .node l em r, before, after, _ =>
    if offset < em.start then descend offset l before (em :: (r.toList ++ after)) false
    else if extentMapEnd em ≤ offset then
      descend offset r (em :: (l.toList.reverse ++ before)) after true
    else .hit (l.toList.reverse ++ before) em (r.toList ++ after)

/-- `while (prev && offset >= extent_map_end(prev_entry)) prev = rb_next(prev);` -/
def walkNext (offset : ℕ) : List ExtentMap → List ExtentMap → List ExtentMap × List ExtentMap
  | before, [] => (before, [])
  | before, em :: after =>
    if extentMapEnd em ≤ offset then walkNext offset (em :: before) after else (before, em :: after)

/-- `while (prev && offset < prev_entry->start) prev = rb_prev(prev);` where `prev` is the head of
the maps before. -/
def walkPrev (offset : ℕ) : List ExtentMap → List ExtentMap → List ExtentMap × List ExtentMap
  | [], after => ([], after)
  | em :: before, after =>
    if offset < em.start then walkPrev offset before (em :: after) else (em :: before, after)

def prevRet (offset : ℕ) (before after : List ExtentMap) (lastLeft : Bool) :
    List ExtentMap × List ExtentMap :=
  match lastLeft, before with
  | true, em :: before => walkNext offset before (em :: after)
  | _, _ => walkNext offset before after

def nextRet (offset : ℕ) (before after : List ExtentMap) (lastLeft : Bool) :
    List ExtentMap × List ExtentMap :=
  match lastLeft, after with
  | false, em :: after => walkPrev offset (em :: before) after
  | _, _ => walkPrev offset before after

def meets (em : ExtentMap) (start fin : ℕ) : Bool :=
  decide (em.start < fin) && decide (start < extentMapEnd em)

/-- `lookup_extent_mapping`: the map found, with the maps before and after it. -/
def lookupExtentMapping (t : Tree) (start len : ℕ) :
    Option (List ExtentMap × ExtentMap × List ExtentMap) :=
  let fin := rangeEnd start len
  match descend start t [] [] false with
  | .hit before em after => if meets em start fin then some (before, em, after) else none
  | .miss before after lastLeft =>
    match prevRet start before after lastLeft with
    | (before', em :: after') =>
      if meets em start fin then some (before', em, after')
      else lookupNext start fin before after lastLeft
    | _ => lookupNext start fin before after lastLeft
where
  /-- `if (!rb_node && next)`. -/
  lookupNext (start fin : ℕ) (before after : List ExtentMap) (lastLeft : Bool) :
      Option (List ExtentMap × ExtentMap × List ExtentMap) :=
    match nextRet start before after lastLeft with
    | (em :: before', after') => if meets em start fin then some (before', em, after') else none
    | _ => none

def mergableMaps (prev next : ExtentMap) : Bool :=
  if prev.flags.pinned then false
  else if prev.flags.compressed then false
  else decide (extentMapEnd prev = next.start ∧ prev.flags = next.flags ∧ prev.bdev = next.bdev
    ∧ ((next.blockStart = EXTENT_MAP_HOLE ∧ prev.blockStart = EXTENT_MAP_HOLE)
      ∨ (next.blockStart = EXTENT_MAP_INLINE ∧ prev.blockStart = EXTENT_MAP_INLINE)
      ∨ (next.blockStart = EXTENT_MAP_DELALLOC ∧ prev.blockStart = EXTENT_MAP_DELALLOC)
      ∨ (next.blockStart < EXTENT_MAP_LAST_BYTE - 1 ∧ next.blockStart = extentMapBlockEnd prev)))

/-- `if (em->start != 0)`: the map before is merged into `em`. -/
def mergePrev (before : List ExtentMap) (em : ExtentMap) : List ExtentMap × ExtentMap :=
  if em.start ≠ 0 then
    match before with
    | merge :: before' =>
      if mergableMaps merge em then
        (before', { em with
          start := merge.start
          len := addMod 64 em.len merge.len
          blockLen := addMod 64 em.blockLen merge.blockLen
          blockStart := merge.blockStart })
      else (before, em)
    | [] => (before, em)
  else (before, em)

/-- The map after is merged into `em`. -/
def mergeNext (em : ExtentMap) (after : List ExtentMap) : ExtentMap × List ExtentMap :=
  match after with
  | merge :: after' =>
    if mergableMaps em merge then
      ({ em with len := addMod 64 em.len merge.len, blockLen := addMod 64 em.blockLen merge.len },
      after')
    else (em, after)
  | [] => (em, after)

/-- The tree with `em` at a place, after both merges. -/
def mergeBoth (bal : Balance) (before : List ExtentMap) (em : ExtentMap) (after : List ExtentMap) :
    Tree :=
  let p := mergePrev before em
  let n := mergeNext p.2 after
  bal.tree (p.1.reverse ++ n.1 :: n.2)

def unpinExtentCache (bal : Balance) (t : Tree) (start len : ℕ) : Tree :=
  match lookupExtentMapping t start len with
  | none => t
  | some (before, em, after) =>
    mergeBoth bal before { em with flags := { em.flags with pinned := false } } after

def addExtentMapping (bal : Balance) (t : Tree) (em : ExtentMap) : ℤ × Tree :=
  match lookupExtentMapping t em.start em.len with
  | some _ => (-EEXIST, t)
  | none =>
    match descend em.start t [] [] false with
    | .hit _ _ _ => (-EEXIST, t)
    | .miss before after _ => (0, mergeBoth bal before em after)

/-- `remove_extent_mapping`, of a map with `before` and `after` around it. -/
def removeExtentMapping (bal : Balance) (before after : List ExtentMap) : Tree :=
  bal.tree (before ++ after)

end LinuxKernel.Btrfs
