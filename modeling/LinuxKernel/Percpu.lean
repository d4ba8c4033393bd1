import LinuxKernel.Bitmap
import LinuxKernel.Segment

/-!
# Per-cpu chunks

The area map of a chunk in `mm/percpu.c`: an array of signed sizes, positive for a free area and
negative for one in use. An `int` is an integer, and sums and differences wrap round at 32 bits. A
`BUG_ON` that fires is `none`. The lists on which chunks are sorted by their free size are left out.
-/

namespace LinuxKernel.Mm

def intAdd (a b : ℤ) : ℤ := (a + b).bmod (2 ^ 32)

def intSub (a b : ℤ) : ℤ := (a - b).bmod (2 ^ 32)

def alignInt (off align : ℤ) : ℤ := (Lib.align (BitVec.ofInt 32 off) (BitVec.ofInt 32 align)).toInt

/-- `x < sizeof(int)`, a comparison of unsigned numbers. -/
def belowSizeofInt (x : ℤ) : Prop := 0 ≤ x ∧ x < 4

instance (x : ℤ) : Decidable (belowSizeofInt x) := inferInstanceAs (Decidable (_ ∧ _))

structure PcpuChunk where
  freeSize : ℤ
  contigHint : ℤ
  mapUsed : ℕ
  mapAlloc : ℕ
  map : ℕ → ℤ

def PcpuChunk.set (chunk : PcpuChunk) (i : ℕ) (x : ℤ) : PcpuChunk :=
  { chunk with map := Function.update chunk.map i x }

def PcpuChunk.entries (chunk : PcpuChunk) : List ℤ := (List.range chunk.mapUsed).map chunk.map

/-- What `pcpu_alloc_chunk` sets up, with room for `mapAlloc` entries. -/
def pcpuAllocChunk (pcpuUnitSize : ℤ) (mapAlloc : ℕ) : PcpuChunk :=
  ⟨pcpuUnitSize, pcpuUnitSize, 1, mapAlloc, Function.update (fun _ => 0) 0 pcpuUnitSize⟩

def pcpuExtendAreaMap (chunk : PcpuChunk) (newAlloc : ℕ) : PcpuChunk :=
  if newAlloc ≤ chunk.mapAlloc then chunk
  else
    { chunk with
      mapAlloc := newAlloc
      map := fun i => if i < chunk.mapAlloc then chunk.map i else 0 }

/-- The branch `if (head)` of `pcpu_split_block`. -/
def splitHead (chunk : PcpuChunk) (i : ℕ) (head : ℤ) : PcpuChunk :=
  (chunk.set (i + 1) (intSub (chunk.map i) head)).set i head

/-- The branch `if (tail)` of `pcpu_split_block`. -/
def splitTail (chunk : PcpuChunk) (i : ℕ) (tail : ℤ) : PcpuChunk :=
  (chunk.set i (intSub (chunk.map i) tail)).set (i + 1) tail

def pcpuSplitBlock (chunk : PcpuChunk) (i : ℕ) (head tail : ℤ) : Option PcpuChunk :=
  let nrExtra := (if head ≠ 0 then 1 else 0) + (if tail ≠ 0 then 1 else 0)
  if chunk.mapAlloc < chunk.mapUsed + nrExtra then none
  else
    let chunk :=
      { chunk with
        map := memmove chunk.map (i + nrExtra) i (chunk.mapUsed - i)
        mapUsed := chunk.mapUsed + nrExtra }
    let (chunk, i) := if head ≠ 0 then (splitHead chunk i head, i + 1) else (chunk, i)
    if tail ≠ 0 then some (splitTail chunk i tail) else some chunk

/-- Giving the first `head` bytes of block `i` to the block before it. -/
def mergeHead (chunk : PcpuChunk) (i : ℕ) (head : ℤ) : PcpuChunk :=
  let chunk :=
    if 0 < chunk.map (i - 1) then chunk.set (i - 1) (intAdd (chunk.map (i - 1)) head)
    else
      { chunk.set (i - 1) (intSub (chunk.map (i - 1)) head) with
        freeSize := intSub chunk.freeSize head }
  chunk.set i (intSub (chunk.map i) head)

/-- The body of the loop of `pcpu_alloc_area` from the computation of `tail` on. -/
def carve (chunk : PcpuChunk) (size : ℤ) (isLast : Bool) (i : ℕ) (off head maxContig : ℤ) :
    Option (PcpuChunk × ℤ) :=
  let tail := intSub (intSub (chunk.map i) head) size
  let tail := if belowSizeofInt tail then 0 else tail
  match if head ≠ 0 ∨ tail ≠ 0 then pcpuSplitBlock chunk i head tail else some chunk with
  | none => none
  | some chunk =>
    let i := if head ≠ 0 then i + 1 else i
    let off := if head ≠ 0 then intAdd off head else off
    let maxContig := if head ≠ 0 then max (chunk.map (i - 1)) maxContig else maxContig
    let maxContig := if tail ≠ 0 then max (chunk.map (i + 1)) maxContig else maxContig
    let contigHint := if isLast then maxContig else max chunk.contigHint maxContig
    let freeSize := intSub chunk.freeSize (chunk.map i)
    some ({ chunk.set i (-chunk.map i) with contigHint := contigHint, freeSize := freeSize }, off)

/-- The body of the loop of `pcpu_alloc_area` for a block that is large enough. -/
def allocAt (chunk : PcpuChunk) (size : ℤ) (i : ℕ) (off head maxContig : ℤ) :
    Option (PcpuChunk × ℤ) :=
  let isLast := decide (i + 1 = chunk.mapUsed)
  if head ≠ 0 ∧ (belowSizeofInt head ∨ 0 < chunk.map (i - 1)) then
    carve (mergeHead chunk i head) size isLast i (intAdd off head) 0 maxContig
  else carve chunk size isLast i off head maxContig

/-- The loop of `pcpu_alloc_area` over the `n` blocks left. -/
def allocLoop (chunk : PcpuChunk) (size align : ℤ) :
    ℕ → ℕ → ℤ → ℤ → Option (PcpuChunk × ℤ)
  | 0, _, _, maxContig => some ({ chunk with contigHint := maxContig }, -1)
  | n + 1, i, off, maxContig =>
    let head := intSub (alignInt off align) off
    if i = 0 ∧ head ≠ 0 then none
    else if chunk.map i < 0 then
      allocLoop chunk size align n (i + 1) (intAdd off |chunk.map i|) maxContig
    else if chunk.map i < intAdd head size then
      allocLoop chunk size align n (i + 1) (intAdd off |chunk.map i|) (max (chunk.map i) maxContig)
    else allocAt chunk size i off head maxContig

def pcpuAllocArea (chunk : PcpuChunk) (size align : ℤ) : Option (PcpuChunk × ℤ) :=
  allocLoop chunk size align chunk.mapUsed 0 0 0

/-- The loop of `pcpu_free_area` over the `n` blocks left: where it ends. -/
def freeLoop (chunk : PcpuChunk) (freeme : ℤ) : ℕ → ℕ → ℤ → ℕ × ℤ
  | 0, i, off => (i, off)
  | n + 1, i, off =>
    if off = freeme then (i, off)
    else freeLoop chunk freeme n (i + 1) (intAdd off |chunk.map i|)

def markFree (chunk : PcpuChunk) (i : ℕ) : PcpuChunk :=
  { chunk.set i (-chunk.map i) with freeSize := intAdd chunk.freeSize (-chunk.map i) }

def mergePrev (chunk : PcpuChunk) (i : ℕ) : PcpuChunk × ℕ :=
  if 0 < i ∧ 0 ≤ chunk.map (i - 1) then
    let chunk := chunk.set (i - 1) (intAdd (chunk.map (i - 1)) (chunk.map i))
    ({ chunk with
        mapUsed := chunk.mapUsed - 1
        map := memmove chunk.map i (i + 1) (chunk.mapUsed - 1 - i) }, i - 1)
  else (chunk, i)

def mergeNext (chunk : PcpuChunk) (i : ℕ) : PcpuChunk :=
  if i + 1 < chunk.mapUsed ∧ 0 ≤ chunk.map (i + 1) then
    let chunk := chunk.set i (intAdd (chunk.map i) (chunk.map (i + 1)))
    { chunk with
      mapUsed := chunk.mapUsed - 1
      map := memmove chunk.map (i + 1) (i + 2) (chunk.mapUsed - 1 - (i + 1)) }
  else chunk

def pcpuFreeArea (chunk : PcpuChunk) (freeme : ℤ) : Option PcpuChunk :=
  let (i, off) := freeLoop chunk freeme chunk.mapUsed 0 0
  if off ≠ freeme then none
  else if 0 < chunk.map i then none
  else
    let (chunk, i) := mergePrev (markFree chunk i) i
    let chunk := mergeNext chunk i
    some { chunk with contigHint := max (chunk.map i) chunk.contigHint }

end LinuxKernel.Mm
