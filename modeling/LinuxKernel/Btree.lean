import LinuxKernel.Word

/-!
# `lib/btree.c`: B+trees

A key of `keylen` words is a natural, the first word the most significant: `longcmp` compares them
as numbers. A value is a nonzero word, with NULL as 0. A node is the list of its used pairs; the
slots behind them hold the key 0 and NULL. `Node h` is a node above `h` levels, and the node that a
pair of an inner node points to stands in the pair.

`btree_insert_level` and `btree_remove_level` look for their node from the root again at each level.
The way to a node is the same each time, so one walk down and back stands for these searches; what
`find_level` does to the keys on the way is done on the way down. `none` is a `BUG_ON` that fires or
a write outside the node.
-/

namespace LinuxKernel.Btree

def ENOMEM : ℤ := 12

/-- `struct btree_geo`; `longs` is the number of words of a node, and `no_longs` is
`keylen * no_pairs`. -/
structure Geo where
  bits : ℕ
  keylen : ℕ
  noPairs : ℕ
  longs : ℕ

/-- `btree_geo32`, `btree_geo64` and `btree_geo128` have `keylen` 1, `LONG_PER_U64` and
`2 * LONG_PER_U64`; `nodesize` is `NODESIZE`. -/
def btreeGeo (L : LongSize) (keylen nodesize : ℕ) : Geo where
  bits := L.bits
  keylen := keylen
  noPairs := nodesize / (L.bits / 8) / (1 + keylen)
  longs := nodesize / (L.bits / 8)

/-- What a pair of a node above `h` levels points to. -/
abbrev Slot : ℕ → Type
  | 0 => ℕ
  | h + 1 => List (ℕ × Slot h)

abbrev Node (h : ℕ) := List (ℕ × Slot h)

/-- `struct btree_head`; the height is 0, or that of the root. -/
inductive Head where
  | empty
  | root (h : ℕ) (node : Node h)

/-- Keys are below this. -/
def Geo.keys (geo : Geo) : ℕ := 2 ^ (geo.bits * geo.keylen)

def lookupNode (key : ℕ) : (h : ℕ) → Node h → ℕ
  | 0, es => match es.find? (·.1 = key) with
    | none => 0
    | some e => e.2
  | h + 1, es => match es.find? (·.1 ≤ key) with
    | none => 0
    | some e => lookupNode key h e.2

def btreeLookup (key : ℕ) : Head → ℕ
  | .empty => 0
  | .root h node => lookupNode key h node

section

variable {P : Type}

/-- One step of `find_level`: the pairs before the child, its pair and the pairs after it.
"Right-most key is too large, update it". -/
def findSlot (key : ℕ) : List (ℕ × P) → Option (List (ℕ × P) × (ℕ × P) × List (ℕ × P))
  | [] => none
  | [(k, c)] => some ([], (if k ≤ key then k else key, c), [])
  | (k, c) :: e :: es =>
    if k ≤ key then some ([], (k, c), e :: es)
    else (findSlot key (e :: es)).map fun r => ((k, c) :: r.1, r.2)

/-- "Shift and insert", at `getpos`. -/
def insertPair (key : ℕ) (val : P) : List (ℕ × P) → List (ℕ × P)
  | [] => [(key, val)]
  | (k, c) :: es => if k ≤ key then (key, val) :: (k, c) :: es else (k, c) :: insertPair key val es

/-- `btree_insert_level` in the node it found. Of a full node the first half goes to a new node,
handed on to the level above with its last key, and the second search ends in one of the halves. -/
def putPair (geo : Geo) (key : ℕ) (val : P) (es : List (ℕ × P)) :
    Option (List (ℕ × P) × Option (ℕ × List (ℕ × P))) :=
  if (es.find? (·.1 ≤ key)).any (·.1 = key) then none
  else if es.length = geo.noPairs then
    let new := es.take (es.length / 2)
    let node := es.drop (es.length / 2)
    match new.getLast? with
    | none => none
    | some (mid, _) =>
      if mid ≤ key then some (node, some (mid, insertPair key val new))
      else some (insertPair key val node, some (mid, new))
  else some (insertPair key val es, none)

def insertNode (geo : Geo) (key val : ℕ) :
    (h : ℕ) → Node h → Option (Node h × Option (ℕ × Node h))
  | 0, es => putPair geo key val es
  | h + 1, es =>
    match findSlot key es with
    | none => none
    | some (before, (k, c), after) =>
      match insertNode geo key val h c with
      | none => none
      | some (c, none) => some (before ++ (k, c) :: after, none)
      | some (c, some (mid, new)) => putPair geo mid new (before ++ (k, c) :: after)

def leafFull (geo : Geo) (key : ℕ) : (h : ℕ) → Node h → Bool
  | 0, es => decide (es.length = geo.noPairs)
  | h + 1, es =>
    match findSlot key es with
    | none => false
    | some (_, (_, c), _) => leafFull geo key h c

/-- What `find_level` alone makes of the tree. -/
def lowerKeys (key : ℕ) : (h : ℕ) → Node h → Node h
  | 0, es => es
  | h + 1, es =>
    match findSlot key es with
    | none => es
    | some (before, (k, c), after) => before ++ (k, lowerKeys key h c) :: after

/-- `btree_insert`. Without `alloc` an allocation fails, if one is made. -/
def btreeInsert (geo : Geo) (alloc : Bool) (key val : ℕ) : Head → Option (ℤ × Head)
  | .empty =>
    if val = 0 then none
    else if alloc then some (0, .root 0 [(key, val)]) else some (-ENOMEM, .empty)
  | .root h node =>
    if val = 0 then none
    else
      match insertNode geo key val h node with
      | none => none
      | some (node', new) =>
        if leafFull geo key h node ∧ ¬alloc then some (-ENOMEM, .root h (lowerKeys key h node))
        else
          match new with
          | none => some (0, .root h node')
          | some (mid, new) =>
            -- `btree_grow`: the old root is below its smallest key
            match node'.getLast? with
            | none => none
            | some (k, _) => some (0, .root (h + 1) [(mid, new), (k, node')])

/-- The first words of the values, which lie behind the keys, as a key. -/
def valWords (geo : Geo) (es : List (ℕ × ℕ)) : ℕ :=
  (es.take geo.keylen).foldl (fun w e => w * 2 ^ geo.bits + e.2) 0

/-- `btree_remove_level` in a leaf: the value, the pairs, and whether one was removed. The position
behind the pairs is an unused slot, or that of the values where the leaf is full. -/
def removeLeaf (geo : Geo) (key : ℕ) (es : List (ℕ × ℕ)) :
    Option (ℕ × List (ℕ × ℕ) × Bool) :=
  let pos := es.findIdx (·.1 ≤ key)
  match es[pos]? with
  | some e => if e.1 = key then some (e.2, es.eraseIdx pos, true) else some (0, es, false)
  | none =>
    if pos < geo.noPairs then
      if key = 0 then if es = [] then none else some (0, es.dropLast, true)
      else some (0, es, false)
    else if valWords geo es = key then
      if geo.keylen * geo.noPairs + geo.noPairs < geo.longs then some (0, es.dropLast, true)
      else none
    else some (0, es, false)

/-- `rebalance` of a child with too few pairs, with `merge`: the pairs of the parent, and whether
one was removed. -/
def rebalance (geo : Geo) (before : List (ℕ × List (ℕ × P))) (k : ℕ) (child : List (ℕ × P))
    (after : List (ℕ × List (ℕ × P))) : List (ℕ × List (ℕ × P)) × Bool :=
  if child.length = 0 then (before ++ after, true)
  else
    match before.getLast? with
    | some (_, left) =>
      if child.length + left.length ≤ geo.noPairs then
        (before.dropLast ++ (k, left ++ child) :: after, true)
      else rebalanceRight before k child after
    | none => rebalanceRight before k child after
where
  rebalanceRight (before : List (ℕ × List (ℕ × P))) (k : ℕ) (child : List (ℕ × P))
      (after : List (ℕ × List (ℕ × P))) : List (ℕ × List (ℕ × P)) × Bool :=
    match after with
    | (k', right) :: after' =>
      if child.length + right.length ≤ geo.noPairs then
        (before ++ (k', child ++ right) :: after', true)
      else (before ++ (k, child) :: after, false)
    | [] => (before ++ [(k, child)], false)

def removeNode (geo : Geo) (key : ℕ) : (h : ℕ) → Node h → Option (ℕ × Node h × Bool)
  | 0, es => removeLeaf geo key es
  | h + 1, es =>
    match findSlot key es with
    | none => none
    | some (before, (k, c), after) =>
      match removeNode geo key h c with
      | none => none
      | some (ret, c, removed) =>
        if removed ∧ c.length < geo.noPairs / 2 then some (ret, rebalance geo before k c after)
        else some (ret, before ++ (k, c) :: after, false)

/-- `btree_remove`, with `btree_shrink` of a root that is left with one child. -/
def btreeRemove (geo : Geo) (key : ℕ) : Head → Option (ℕ × Head)
  | .empty => some (0, .empty)
  | .root 0 node => (removeNode geo key 0 node).map fun r => (r.1, .root 0 r.2.1)
  | .root (h + 1) node =>
    match removeNode geo key (h + 1) node with
    | none => none
    | some (ret, node, removed) =>
      if removed ∧ node.length < geo.noPairs / 2 ∧ node.length = 1 then
        match node.head? with
        | none => none
        | some (_, c) => some (ret, .root h c)
      else some (ret, .root (h + 1) node)

end

/-- A walk down of `btree_get_prev`: the pair found, and `retry_key` with the place it points to. -/
def prevNode (key : ℕ) : (h : ℕ) → Node h → List ℕ → Option (ℕ × List ℕ) →
    Option (ℕ × ℕ) × Option (ℕ × List ℕ)
  | 0, es, _, retry => (es.find? (·.1 ≤ key), retry)
  | h + 1, es, path, retry =>
    let i := es.findIdx (·.1 ≤ key)
    match es[i]? with
    | none => (none, retry)
    | some (k, c) => prevNode key h c (path ++ [i]) (some (k, path ++ [i]))

/-- A key of the tree overwritten. -/
def setKeyAt (key : ℕ) : (h : ℕ) → Node h → List ℕ → Node h
  | 0, es, _ => es
  | _ + 1, es, [] => es
  | _ + 1, es, [i] => es.modify i fun e => (key, e.2)
  | h + 1, es, i :: j :: path => es.modify i fun e => (e.1, setKeyAt key h e.2 (j :: path))

/-- `btree_get_prev` from `retry:`; `__key` points to the caller's buffer, or to the place `at` in
the tree, and reads `key`. The value returned, the buffer and the root afterwards. -/
def prevLoop (geo : Geo) {h : ℕ} (root : Node h) (buf : ℕ) :
    ℕ → Option (List ℕ) → ℕ → Option (ℕ × ℕ × Node h)
  | 0, _, _ => none
  | fuel + 1, place, key =>
    -- `dec_key`
    match prevNode ((key + geo.keys - 1) % geo.keys) h root [] none with
    | (some (k, v), _) =>
      match place with
      | none => some (v, k, root)
      | some path => some (v, buf, setKeyAt k h root path)
    | (none, some (k, path)) => prevLoop geo root buf fuel (some path) k
    | (none, none) => some (0, buf, root)

def btreeGetPrev (geo : Geo) (fuel key : ℕ) : Head → Option (ℕ × ℕ × Head)
  | .empty => some (0, key, .empty)
  | .root h node =>
    if key = 0 then some (0, key, .root h node)
    else (prevLoop geo node key fuel none key).map fun r => (r.1, r.2.1, .root h r.2.2)

end LinuxKernel.Btree
