import LinuxKernel.HeapSort
import LinuxKernel.Loop
import LinuxKernel.RingBuffer

/-!
# `sort` of `lib/sort.c`

The array is memory from `base` on. The counters are byte offsets in an `int`; those of the outer
loops can be negative. `fuel` bounds the passes of each outer loop.
-/

namespace LinuxKernel.Lib

open RingBuffer

abbrev Bytes := ℕ → UInt8

/-- The loop of `generic_swap`, `k` bytes of it. -/
def swapBytes : ℕ → Bytes → ℕ → ℕ → Bytes
  | 0, base, _, _ => base
  | k + 1, base, a, b => swapBytes k (swapAt base a b) (a + 1) (b + 1)

/-- The loop of `generic_swap` has its test at the end. -/
def genericSwap (base : Bytes) (a b size : ℕ) : Bytes := swapBytes (max size 1) base a b

/-- The `k` bytes at `a` and those at `b` exchanged, the latter written last. -/
def exchangeBytes (k : ℕ) (base : Bytes) (a b : ℕ) : Bytes := fun x =>
  if b ≤ x ∧ x < b + k then base (a + (x - b))
  else if a ≤ x ∧ x < a + k then base (b + (x - a)) else base x

def u32Swap (base : Bytes) (a b _size : ℕ) : Bytes := exchangeBytes 4 base a b

section

variable (cmpFunc : List UInt8 → List UInt8 → ℤ) (swapFunc : Bytes → ℕ → ℕ → ℕ → Bytes) (size : ℕ)

/-- `c` in a pass of the inner loops. -/
def childAt (n r : ℕ) (base : Bytes) : ℕ :=
  let c := r * 2 + size
  if c < n - size ∧ cmpFunc (memread base c size) (memread base (c + size) size) < 0 then c + size
  else c

/-- The inner loops. Elements of no bytes are not compared, as `n` is 0 then. -/
def siftBytes (n r : ℕ) (base : Bytes) : Bytes :=
  if _h : r * 2 + size < n ∧ 0 < size then
    let c := childAt cmpFunc size n r base
    if 0 ≤ cmpFunc (memread base r size) (memread base c size) then base
    else siftBytes n c (swapFunc base r c size)
  else base
termination_by n - r
decreasing_by
  unfold childAt
  simp only
  split_ifs <;> omega

/-- A pass of the first loop, over `i` and the memory. -/
def heapifyPass (n : ℕ) (s : ℤ × Bytes) : Pass (ℤ × Bytes) Bytes :=
  if 0 ≤ s.1 then
    .again ((s.1 - size).bmod (2 ^ 32), siftBytes cmpFunc swapFunc size n s.1.toNat s.2)
  else .leave s.2

/-- A pass of the second. -/
def sortPass (s : ℤ × Bytes) : Pass (ℤ × Bytes) Bytes :=
  if 0 < s.1 then
    .again ((s.1 - size).bmod (2 ^ 32),
      siftBytes cmpFunc swapFunc size s.1.toNat 0 (swapFunc s.2 0 s.1.toNat size))
  else .leave s.2

end

def sort (fuel : ℕ) (base : Bytes) (num size : ℕ) (cmpFunc : List UInt8 → List UInt8 → ℤ)
    (swapFunc : Option (Bytes → ℕ → ℕ → ℕ → Bytes)) : Option Bytes :=
  let i := (((num / 2 : ℕ) - 1) * (size : ℤ)).bmod (2 ^ 32)
  let n := num * size
  let swapFunc := swapFunc.getD (if size = 4 then u32Swap else genericSwap)
  (Pass.run (heapifyPass cmpFunc swapFunc size n) fuel (i, base)).bind fun base =>
    Pass.run (sortPass cmpFunc swapFunc size) fuel ((n - size : ℤ).bmod (2 ^ 32), base)

end LinuxKernel.Lib
