import LinuxKernel.Bitmap
import LinuxKernel.Loop
import LinuxKernel.SlotTree

/-!
# `lib/idr.c`: small ids for pointers

`b` is `IDR_BITS`. An `int` is a `BitVec 32`, an id of layer `l` is read with `idIndex`. The tree is
a tree of slots; the pointer array `pa[]` is the layer in hand and the list of the layers above it,
the nearest first, each with the offset it was left by. A `BUG_ON` that fires and a bad pointer are
`bug`.

`kmem_cache_zalloc` and its failure are an argument of `idr_pre_get`; the layers on `id_free` are
part of the state.
-/

namespace LinuxKernel.Lib

def EAGAIN : ℤ := 11

def ENOSPC : ℤ := 28

def ENOENT : ℤ := 2

abbrev CInt := BitVec 32

def idrBits : LongSize → ℕ
  | .long32 => 5
  | .long64 => 6

/-- `MAX_LEVEL`, with `MAX_ID_SHIFT` 31. -/
def maxLevel (b : ℕ) : ℕ := (31 + b - 1) / b

def idrFreeMax (b : ℕ) : ℕ := maxLevel b + maxLevel b

def IDR_NEED_TO_GROW : ℤ := -2

def IDR_NOMORE_SPACE : ℤ := -3

def idrRcToErrno (rc : ℤ) : ℤ := if rc = -1 then -EAGAIN else -ENOSPC

/-- `struct idr_layer` without `ary`. -/
structure LayerInfo (b : ℕ) where
  bitmap : Fin (2 ^ b) → Bool
  count : ℤ
  layer : ℕ

abbrev IdrSlot (b : ℕ) (α : Type*) := SlotTree (LayerInfo b) α (2 ^ b)

abbrev IdrPath (b : ℕ) (α : Type*) := List (SlotFrame (LayerInfo b) α (2 ^ b))

structure IdrLayer (b : ℕ) (α : Type*) where
  info : LayerInfo b
  ary : Fin (2 ^ b) → IdrSlot b α

/-- `id_free` and `id_free_cnt`. The list is linked through `ary[0]`. -/
structure IdFree (b : ℕ) (α : Type*) where
  list : List (IdrLayer b α)
  cnt : ℕ

structure Idr (b : ℕ) (α : Type*) where
  top : IdrSlot b α
  layers : ℕ
  free : IdFree b α

variable {b : ℕ} {α : Type*}

def IdrLayer.slot (p : IdrLayer b α) : IdrSlot b α := .node p.info p.ary

/-- `(id >> (IDR_BITS*l)) & IDR_MASK`. -/
def idIndex (b l : ℕ) (id : CInt) : Fin (2 ^ b) :=
  ⟨(id.sshiftRight (b * l)).toNat % 2 ^ b, Nat.mod_lt _ (by positivity)⟩

def LayerInfo.setBit (p : LayerInfo b) (n : Fin (2 ^ b)) : LayerInfo b :=
  { p with bitmap := Function.update p.bitmap n true }

def LayerInfo.clearBit (p : LayerInfo b) (n : Fin (2 ^ b)) : LayerInfo b :=
  { p with bitmap := Function.update p.bitmap n false }

def LayerInfo.full (p : LayerInfo b) : Bool := decide (∀ n, p.bitmap n = true)

def idrInit : Idr b α := ⟨.null, 0, ⟨[], 0⟩⟩

/-- A layer has a slot 0. -/
local instance layer_neZero (b : ℕ) : NeZero (2 ^ b) := ⟨(Nat.two_pow_pos b).ne'⟩

/-- What `kmem_cache_zalloc` returns. -/
def zeroLayer : IdrLayer b α := ⟨⟨fun _ => false, 0, 0⟩, fun _ => .null⟩

def getFromFreeList (free : IdFree b α) : Option (IdrLayer b α × IdFree b α) :=
  match free.list with
  | [] => none
  | p :: list => some ({ p with ary := Function.update p.ary 0 .null }, ⟨list, free.cnt - 1⟩)

def moveToFreeList (free : IdFree b α) (p : IdrLayer b α) : IdFree b α :=
  ⟨p :: free.list, free.cnt + 1⟩

/-- The loop of `idr_pre_get`, where `avail` more calls of `kmem_cache_zalloc` succeed. -/
def preGetLoop : ℕ → IdFree b α → Bool × IdFree b α
  | 0, free => (decide (idrFreeMax b ≤ free.cnt), free)
  | avail + 1, free =>
    if free.cnt < idrFreeMax b then preGetLoop avail (moveToFreeList free zeroLayer) else (true, free)

def idrPreGet (avail : ℕ) (idp : Idr b α) : Bool × Idr b α :=
  let (ret, free) := preGetLoop avail idp.free
  (ret, { idp with free := free })

/-- `idr_mark_full`: `p` is the layer in hand, `pa` the layers above it. The tree is read back. -/
def idrMarkFull (id : CInt) (p : IdrLayer b α) : IdrPath b α → IdrSlot b α
  | [] => .node (p.info.setBit (idIndex b 0 id)) p.ary
  | f :: pa =>
    let info := p.info.setBit (idIndex b 0 id)
    if info.full then
      idrMarkFull (id.sshiftRight b) ⟨f.payload, Function.update f.slots f.offset (.node info p.ary)⟩ pa
    else plugAll (f :: pa) (.node info p.ary)

/-- The variables of `sub_alloc`: `l` is the level of `p`. -/
structure SubState (b : ℕ) (α : Type*) where
  id : CInt
  l : ℕ
  p : IdrLayer b α
  pa : IdrPath b α
  free : IdFree b α

/-- How `sub_alloc` returns: an id with `pa[]`, or a negative code with the id it writes back and
the tree it leaves. -/
inductive SubExit (b : ℕ) (α : Type*) where
  | found (id : CInt) (p : IdrLayer b α) (pa : IdrPath b α) (free : IdFree b α)
  | stop (rc : ℤ) (id : CInt) (top : IdrSlot b α) (free : IdFree b α)
  | bug

def SubState.top (s : SubState b α) : IdrSlot b α := plugAll s.pa s.p.slot

def subAllocStart (id : CInt) (layers : ℕ) (free : IdFree b α) :
    IdrSlot b α → Pass (SubState b α) (SubExit b α)
  | .node info ary => .again ⟨id, layers - 1, ⟨info, ary⟩, [], free⟩
  | _ => .leave .bug

/-- "no space available go back to previous layer." -/
def subAllocUp (layers : ℕ) (s : SubState b α) : Pass (SubState b α) (SubExit b α) :=
  let l := s.l + 1
  let id := (s.id ||| (1#32 <<< (b * l) - 1#32)) + 1#32
  if (1#32 <<< (layers * b)).sle id then .leave (.stop IDR_NEED_TO_GROW id s.top s.free)
  else match s.pa with
    | [] => .leave .bug
    | f :: pa =>
      let sh := b * (l + 1)
      if s.id.sshiftRight sh = id.sshiftRight sh then
        .again ⟨id, l, ⟨f.payload, Function.update f.slots f.offset s.p.slot⟩, pa, s.free⟩
      else subAllocStart id layers s.free s.top

/-- The id at the free bit `m` of the layer in hand. -/
def SubState.idAt (s : SubState b α) (m : Fin (2 ^ b)) : CInt :=
  let n := idIndex b s.l s.id
  let sh := b * s.l
  if m ≠ n then (s.id.sshiftRight sh ^^^ BitVec.ofNat 32 n ^^^ BitVec.ofNat 32 m) <<< sh else s.id

/-- From the layer in hand to its child `m`: "Create the layer below if it is missing." -/
def subAllocDown (s : SubState b α) (m : Fin (2 ^ b)) (id : CInt) : Pass (SubState b α) (SubExit b α) :=
  match s.l with
  | 0 => .leave (.found id s.p s.pa s.free)
  | l + 1 => match s.p.ary m with
    | .node info ary => .again ⟨id, l, ⟨info, ary⟩, ⟨s.p.info, s.p.ary, m⟩ :: s.pa, s.free⟩
    | .leaf _ => .leave .bug
    | .null => match getFromFreeList s.free with
      | none => .leave (.stop (-1) id s.top s.free)
      | some (new, free) =>
        .again ⟨id, l, ⟨{ new.info with layer := l }, new.ary⟩,
          ⟨{ s.p.info with count := s.p.info.count + 1 }, s.p.ary, m⟩ :: s.pa, free⟩

/-- One pass of `while (1)`. -/
def subAllocPass (layers : ℕ) (s : SubState b α) : Pass (SubState b α) (SubExit b α) :=
  match findNext (fun i => !s.p.info.bitmap i) (idIndex b s.l s.id) with
  | none => subAllocUp layers s
  | some m =>
    if (s.idAt m).slt 0#32 then .leave (.stop IDR_NOMORE_SPACE (s.idAt m) s.top s.free)
    else subAllocDown s m (s.idAt m)

/-- A bound on the passes of `sub_alloc`: the id never goes down, and the level does when it stays. -/
def SubState.variant (layers : ℕ) (s : SubState b α) : ℕ :=
  (2 ^ 32 - s.id.toNat) * (layers + 1) + s.l

def subAlloc (idp : Idr b α) (startingId : CInt) : Option (SubExit b α) :=
  match subAllocStart startingId idp.layers idp.free idp.top with
  | .leave r => some r
  | .again s => Pass.run (subAllocPass idp.layers) (s.variant idp.layers + 1) s

/-- "If we built part of the structure tear it down.": `built` layers stand above `idp->top`. -/
def tearDown : ℕ → IdrSlot b α → IdFree b α → IdrSlot b α × IdFree b α
  | built + 1, .node info ary, free =>
    tearDown built (ary 0) (moveToFreeList free
      ⟨{ info with bitmap := fun _ => false, count := 0 }, Function.update ary 0 .null⟩)
  | _, p, free => (p, free)

/-- The layer `new` on top of `p`. -/
def growLayer (new p : IdrLayer b α) (layers : ℕ) : IdrLayer b α :=
  let info := { new.info with count := 1, layer := layers - 1 }
  ⟨if p.info.full then info.setBit 0 else info, Function.update new.ary 0 p.slot⟩

/-- "Add a new layer to the top of the tree if the requested id is larger than the currently
allocated space.", with `more` layers left below `MAX_LEVEL - 1`. An error is the tree and the free
list after the teardown. -/
def growLoop (id : CInt) : ℕ → ℕ → ℕ → IdrLayer b α → IdFree b α →
    Except (IdrSlot b α × IdFree b α) (IdrLayer b α × ℕ × IdFree b α)
  | 0, layers, _, p, free => .ok (p, layers, free)
  | more + 1, layers, built, p, free =>
    if (1#32 <<< (layers * b)).sle id then
      let layers := layers + 1
      if p.info.count = 0 then
        growLoop id more layers built { p with info := { p.info with layer := p.info.layer + 1 } } free
      else match getFromFreeList free with
        | none => .error (tearDown built p.slot free)
        | some (new, free) => growLoop id more layers (built + 1) (growLayer new p layers) free
    else .ok (p, layers, free)

/-- How `idr_get_empty_slot` returns. -/
inductive EmptySlot (b : ℕ) (α : Type*) where
  | found (id : CInt) (p : IdrLayer b α) (pa : IdrPath b α) (layers : ℕ) (free : IdFree b α)
  | stop (rc : ℤ) (idp : Idr b α)
  | bug

/-- The layer `idr_get_empty_slot` starts from, and how many layers stand above `idp->top`. -/
def topLayer (idp : Idr b α) : Option (IdrLayer b α × ℕ × ℕ × IdFree b α) :=
  match idp.top with
  | .node info ary => some (⟨info, ary⟩, idp.layers, 0, idp.free)
  | _ => (getFromFreeList idp.free).map fun (p, free) =>
      ({ p with info := { p.info with layer := 0 } }, 1, 1, free)

/-- One pass from `build_up:`. -/
def buildUp (s : Idr b α × CInt) : Pass (Idr b α × CInt) (EmptySlot b α) :=
  let (idp, id) := s
  match topLayer idp with
  | none => .leave (.stop (-1) idp)
  | some (p, layers, built, free) =>
    match growLoop id (maxLevel b - 1 - layers) layers built p free with
    | .error (top, free) => .leave (.stop (-1) { idp with top := top, free := free })
    | .ok (p, layers, free) =>
      match subAlloc ⟨p.slot, layers, free⟩ id with
      | none => .leave .bug
      | some .bug => .leave .bug
      | some (.found id p pa free) => .leave (.found id p pa layers free)
      | some (.stop rc id top free) =>
        if rc = IDR_NEED_TO_GROW then .again (⟨top, layers, free⟩, id)
        else .leave (.stop rc ⟨top, layers, free⟩)

def idrGetEmptySlot (idp : Idr b α) (startingId : CInt) : Option (EmptySlot b α) :=
  Pass.run buildUp (2 ^ 32 - startingId.toNat + 1) (idp, startingId)

/-- A pointer as the content of a slot. -/
def ptrSlot : Option α → IdrSlot b α
  | none => .null
  | some a => .leaf a

/-- `idr_get_new_above` with `idr_get_new_above_int`, whose body is under `if (id >= 0)`. -/
def idrGetNewAbove (idp : Idr b α) (ptr : Option α) (startingId : CInt) :
    Option (Except ℤ CInt × Idr b α) :=
  match idrGetEmptySlot idp startingId with
  | some (.found id p pa layers free) =>
    let p : IdrLayer b α := ⟨{ p.info with count := p.info.count + 1 },
      Function.update p.ary (idIndex b 0 id) (ptrSlot ptr)⟩
    some (.ok id, ⟨idrMarkFull id p pa, layers, free⟩)
  | some (.stop rc idp) => some (.error (idrRcToErrno rc), idp)
  | _ => none

/-- The way down of `sub_remove`, from the layer of level `l`. -/
def subRemoveDown (id : CInt) : ℕ → IdrPath b α → IdrSlot b α → IdrPath b α × IdrSlot b α
  | l + 1, pa, .node info ary =>
    let n := idIndex b (l + 1) id
    subRemoveDown id l (⟨info.clearBit n, ary, n⟩ :: pa) (ary n)
  | _, pa, p => (pa, p)

/-- The way up of `sub_remove`: the tree, and whether `*paa` came to NULL. -/
def subRemoveUp (p : IdrLayer b α) : IdrPath b α → IdrSlot b α × Bool
  | [] =>
    if p.info.count - 1 = 0 then (.null, true)
    else (.node { p.info with count := p.info.count - 1 } p.ary, false)
  | f :: pa =>
    if p.info.count - 1 = 0 then
      subRemoveUp ⟨f.payload, Function.update f.slots f.offset .null⟩ pa
    else (plugAll (f :: pa) (.node { p.info with count := p.info.count - 1 } p.ary), false)

def subRemove (idp : Idr b α) (id : CInt) : Idr b α :=
  let (pa, p) := subRemoveDown id (idp.layers - 1) [] idp.top
  let n := idIndex b 0 id
  match p with
  | .node info ary =>
    if info.bitmap n then
      let (top, emptied) := subRemoveUp ⟨info.clearBit n, Function.update ary n .null⟩ pa
      { idp with top := top, layers := if emptied then 0 else idp.layers }
    else { idp with top := plugAll pa p }
  | _ => { idp with top := plugAll pa p }

def idrShrink (idp : Idr b α) : Idr b α :=
  match idp.top with
  | .node info ary =>
    if info.count = 1 ∧ 1 < idp.layers ∧ ¬ (ary 0).isNull then
      { idp with top := ary 0, layers := idp.layers - 1 }
    else idp
  | _ => idp

/-- The loop that trims `id_free`; `get_from_free_list` on an empty list would give NULL to free. -/
def trimFree : List (IdrLayer b α) → ℕ → IdFree b α
  | [], cnt => ⟨[], cnt⟩
  | p :: list, cnt => if idrFreeMax b ≤ cnt then trimFree list (cnt - 1) else ⟨p :: list, cnt⟩

def maskId (id : CInt) : CInt := id &&& 0x7fffffff#32

def idrRemove (idp : Idr b α) (id : CInt) : Idr b α :=
  let idp := idrShrink (subRemove idp (maskId id))
  { idp with free := trimFree idp.free.list idp.free.cnt }

/-- The loop of `idr_find`: `l` layers are left. -/
def findLoop (id : CInt) : ℕ → IdrSlot b α → Option (IdrSlot b α)
  | l + 1, .node info ary => if info.layer = l then findLoop id l (ary (idIndex b l id)) else none
  | 0, p => some p
  | _ + 1, .null => some .null
  | _ + 1, .leaf _ => none

def idrFind (idp : Idr b α) (id : CInt) : Option (IdrSlot b α) :=
  match idp.top with
  | .node info _ =>
    if (1#32 <<< ((info.layer + 1) * b)).sle (maskId id) then some .null
    else findLoop (maskId id) (info.layer + 1) idp.top
  | _ => some .null

/-- `idr_replace` below a layer of level `l`: the error or the old pointer, and the tree. -/
def replaceLoop (ptr : Option α) (id : CInt) : ℕ → IdrSlot b α → Except ℤ (IdrSlot b α) × IdrSlot b α
  | 0, .node info ary =>
    let n := idIndex b 0 id
    if info.bitmap n then (.ok (ary n), .node info (Function.update ary n (ptrSlot ptr)))
    else (.error (-ENOENT), .node info ary)
  | l + 1, .node info ary =>
    let n := idIndex b (l + 1) id
    let r := replaceLoop ptr id l (ary n)
    (r.1, .node info (Function.update ary n r.2))
  | _, p => (.error (-ENOENT), p)

def idrReplace (idp : Idr b α) (ptr : Option α) (id : CInt) : Except ℤ (IdrSlot b α) × Idr b α :=
  match idp.top with
  | .node info _ =>
    if (1#32 <<< ((info.layer + 1) * b)).sle (maskId id) then (.error (-EINVAL), idp)
    else
      let r := replaceLoop ptr (maskId id) info.layer idp.top
      (r.1, { idp with top := r.2 })
  | _ => (.error (-EINVAL), idp)

end LinuxKernel.Lib
