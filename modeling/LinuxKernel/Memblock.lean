import LinuxKernel.Word

/-!
# Logical memory blocks

`mm/memblock.c`: a table of `(base, size)` entries, of which the first `cnt` are in use. An access
past the end of the table is an error, written `none`.
-/

namespace LinuxKernel.Mm

/-- `MAX_MEMBLOCK_REGIONS`; the table has one entry more. -/
def maxMemblockRegions : ℕ := 128

structure MemblockProperty where
  base : ℕ
  size : ℕ
deriving DecidableEq

structure MemblockRegion where
  cnt : ℕ
  region : ℕ → MemblockProperty

structure Memblock where
  rmoSize : ℕ
  memory : MemblockRegion
  reserved : MemblockRegion

variable (L : LongSize)

def MemblockRegion.set (rgn : MemblockRegion) (i : ℕ) (p : MemblockProperty) : MemblockRegion :=
  { rgn with region := Function.update rgn.region i p }

def memblockAddrsAdjacent (base1 size1 base2 size2 : ℕ) : ℤ :=
  if base2 = addMod 64 base1 size1 then 1
  else if base1 = addMod 64 base2 size2 then -1
  else 0

def memblockRegionsAdjacent (rgn : MemblockRegion) (r1 r2 : ℕ) : ℤ :=
  memblockAddrsAdjacent (rgn.region r1).base (rgn.region r1).size (rgn.region r2).base
    (rgn.region r2).size

/-- `n` passes of the loop of `memblock_remove_region` from `i` on. -/
def shiftDown (region : ℕ → MemblockProperty) : ℕ → ℕ → Option (ℕ → MemblockProperty)
  | 0, _ => some region
  | n + 1, i =>
    if i + 1 ≤ maxMemblockRegions then
      shiftDown (Function.update region i (region (i + 1))) n (i + 1)
    else none

def memblockRemoveRegion (rgn : MemblockRegion) (r : ℕ) : Option MemblockRegion :=
  (shiftDown rgn.region (subMod L.bits rgn.cnt 1 - r) r).map
    (⟨subMod L.bits rgn.cnt 1, ·⟩)

def memblockCoalesceRegions (rgn : MemblockRegion) (r1 r2 : ℕ) : Option MemblockRegion :=
  memblockRemoveRegion L (rgn.set r1
    ⟨(rgn.region r1).base, addMod 64 (rgn.region r1).size (rgn.region r2).size⟩) r2

def memblockInit (mb : Memblock) : Memblock where
  rmoSize := mb.rmoSize
  memory := { mb.memory.set 0 ⟨0, 0⟩ with cnt := 1 }
  reserved := { mb.reserved.set 0 ⟨0, 0⟩ with cnt := 1 }

/-- The first loop of `memblock_add_region`, `n` passes from `i` on: the table, `i` and `coalesced`
it ends with, or `none` when the region is already there. -/
def tryCoalesce (rgn : MemblockRegion) (base size : ℕ) : ℕ → ℕ → Option (MemblockRegion × ℕ × ℕ)
  | 0, i => some (rgn, i, 0)
  | n + 1, i =>
    let rgnbase := (rgn.region i).base
    let rgnsize := (rgn.region i).size
    if rgnbase = base ∧ rgnsize = size then none
    else if 0 < memblockAddrsAdjacent base size rgnbase rgnsize then
      some (rgn.set i ⟨subMod 64 rgnbase size, addMod 64 rgnsize size⟩, i, 1)
    else if memblockAddrsAdjacent base size rgnbase rgnsize < 0 then
      some (rgn.set i ⟨rgnbase, addMod 64 rgnsize size⟩, i, 1)
    else tryCoalesce rgn base size n (i + 1)

/-- The second loop of `memblock_add_region`, entered with `i + 1` in place of `i`. -/
def insertSorted (base size : ℕ) : (ℕ → MemblockProperty) → ℕ → ℕ → MemblockProperty
  | region, 0 => region
  | region, i + 1 =>
    if base < (region i).base then
      insertSorted base size (Function.update region (i + 1) (region i)) i
    else Function.update region (i + 1) ⟨base, size⟩

/-- The end of `memblock_add_region`, where no entry was joined. -/
def addToTable (rgn : MemblockRegion) (base size : ℕ) : MemblockRegion × ℤ :=
  if maxMemblockRegions ≤ rgn.cnt then (rgn, -1)
  else
    let region := insertSorted base size rgn.region rgn.cnt
    let region := if base < (region 0).base then Function.update region 0 ⟨base, size⟩ else region
    (⟨rgn.cnt + 1, region⟩, 0)

def memblockAddRegion (rgn : MemblockRegion) (base size : ℕ) : Option (MemblockRegion × ℤ) :=
  if rgn.cnt = 1 ∧ (rgn.region 0).size = 0 then some (rgn.set 0 ⟨base, size⟩, 0)
  else
    match tryCoalesce rgn base size rgn.cnt 0 with
    | none => some (rgn, 0)
    | some (rgn, i, coalesced) =>
      if i < subMod L.bits rgn.cnt 1 ∧ memblockRegionsAdjacent rgn i (i + 1) ≠ 0 then
        (memblockCoalesceRegions L rgn i (i + 1)).map (·, (coalesced + 1 : ℕ))
      else if coalesced ≠ 0 then some (rgn, coalesced)
      else some (addToTable rgn base size)

def memblockAdd (mb : Memblock) (base size : ℕ) : Option (Memblock × ℤ) :=
  let mb := if base = 0 then { mb with rmoSize := size } else mb
  (memblockAddRegion L mb.memory base size).map fun (rgn, ret) => ({ mb with memory := rgn }, ret)

/-- The loop of `__memblock_remove`, `n` passes from `i` on: the entry the range lies in. -/
def findRegion (rgn : MemblockRegion) (base fin : ℕ) : ℕ → ℕ → Option ℕ
  | 0, _ => none
  | n + 1, i =>
    if (rgn.region i).base ≤ base ∧ fin ≤ addMod 64 (rgn.region i).base (rgn.region i).size then
      some i
    else findRegion rgn base fin n (i + 1)

def rawMemblockRemove (rgn : MemblockRegion) (base size : ℕ) : Option (MemblockRegion × ℤ) :=
  let fin := addMod 64 base size
  match findRegion rgn base fin rgn.cnt 0 with
  | none => some (rgn, -1)
  | some i =>
    let rgnbegin := (rgn.region i).base
    let rgnsize := (rgn.region i).size
    let rgnend := addMod 64 rgnbegin rgnsize
    if rgnbegin = base ∧ rgnend = fin then (memblockRemoveRegion L rgn i).map (·, 0)
    else if rgnbegin = base then some (rgn.set i ⟨fin, subMod 64 rgnsize size⟩, 0)
    else if rgnend = fin then some (rgn.set i ⟨rgnbegin, subMod 64 rgnsize size⟩, 0)
    else
      memblockAddRegion L (rgn.set i ⟨rgnbegin, subMod 64 base rgnbegin⟩) fin (subMod 64 rgnend fin)

def memblockRemove (mb : Memblock) (base size : ℕ) : Option (Memblock × ℤ) :=
  (rawMemblockRemove L mb.memory base size).map fun (rgn, ret) => ({ mb with memory := rgn }, ret)

def memblockFree (mb : Memblock) (base size : ℕ) : Option (Memblock × ℤ) :=
  (rawMemblockRemove L mb.reserved base size).map fun (rgn, ret) =>
    ({ mb with reserved := rgn }, ret)

end LinuxKernel.Mm
