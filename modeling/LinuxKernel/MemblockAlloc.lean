import LinuxKernel.Align
import LinuxKernel.Loop
import LinuxKernel.Memblock

/-!
# Allocation of memory blocks

`__memblock_alloc_base` of `mm/memblock.c`: from the last entry of the memory table down, the
highest aligned range that meets no reserved entry. `MEMBLOCK_REAL_LIMIT` is the architecture's.
-/

namespace LinuxKernel.Mm

def memblockAllocAnywhere : ℕ := 0

def memblockAddrsOverlap (base1 size1 base2 size2 : ℕ) : Bool :=
  base1 < addMod 64 base2 size2 && base2 < addMod 64 base1 size1

/-- The loop of `memblock_overlaps_region`, `n` passes from `i` on. -/
def overlapsFrom (rgn : MemblockRegion) (base size : ℕ) : ℕ → ℕ → Option ℕ
  | 0, _ => none
  | n + 1, i =>
    if memblockAddrsOverlap base size (rgn.region i).base (rgn.region i).size then some i
    else overlapsFrom rgn base size n (i + 1)

/-- `memblock_overlaps_region`; `none` is its `-1`. -/
def memblockOverlapsRegion (rgn : MemblockRegion) (base size : ℕ) : Option ℕ :=
  overlapsFrom rgn base size rgn.cnt 0

def memblockAlignDown (addr size : ℕ) : ℕ := andNot 64 addr (subMod 64 size 1)

def memblockAlignUp (addr size : ℕ) : ℕ :=
  andNot 64 (addMod 64 addr (subMod 64 size 1)) (subMod 64 size 1)

/-- A pass of the inner loop of `__memblock_alloc_base`. It leaves with the base of the area to
take, if it has found one. -/
def allocPass (reserved : MemblockRegion) (memblockbase size align base : ℕ) :
    Pass ℕ (Option ℕ) :=
  if base ≠ 0 ∧ memblockbase ≤ base then
    match memblockOverlapsRegion reserved base size with
    | none => .leave (some base)
    | some j =>
      let resBase := (reserved.region j).base
      if resBase < size then .leave none
      else .again (memblockAlignDown (subMod 64 resBase size) align)
  else .leave none

/-- The base the inner loop starts from in a memory entry, if it is entered at all. -/
def allocStart (p : MemblockProperty) (size align maxAddr : ℕ) : Option ℕ :=
  if p.size < size then none
  else if maxAddr = memblockAllocAnywhere then
    some (memblockAlignDown (subMod 64 (addMod 64 p.base p.size) size) align)
  else if p.base < maxAddr then
    some (memblockAlignDown (subMod 64 (min (addMod 64 p.base p.size) maxAddr) size) align)
  else none

def takeArea (L : LongSize) (mb : Memblock) (base size : ℕ) : Option (Memblock × ℕ) :=
  (memblockAddRegion L mb.reserved base size).map fun (rgn, ret) =>
    ({ mb with reserved := rgn }, if ret < 0 then 0 else base)

/-- The outer loop of `__memblock_alloc_base`, entered with `i + 1` in place of `i`. -/
def allocFrom (L : LongSize) (fuel : ℕ) (mb : Memblock) (size align maxAddr : ℕ) :
    ℕ → Option (Memblock × ℕ)
  | 0 => some (mb, 0)
  | i + 1 =>
    match allocStart (mb.memory.region i) size align maxAddr with
    | none => allocFrom L fuel mb size align maxAddr i
    | some base =>
      match Pass.run (allocPass mb.reserved (mb.memory.region i).base size align) fuel base with
      | none => none
      | some none => allocFrom L fuel mb size align maxAddr i
      | some (some base) => takeArea L mb base size

/-- The limit `__memblock_alloc_base` works with. -/
def allocLimit (realLimit maxAddr : ℕ) : ℕ :=
  if maxAddr = memblockAllocAnywhere then realLimit else maxAddr

def memblockAllocBase (L : LongSize) (realLimit fuel : ℕ) (mb : Memblock)
    (size align maxAddr : ℕ) : Option (Memblock × ℕ) :=
  allocFrom L fuel mb (memblockAlignUp size align) align (allocLimit realLimit maxAddr)
    mb.memory.cnt

end LinuxKernel.Mm
