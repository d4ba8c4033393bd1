import LinuxKernel.HeapSort
import LinuxKernel.Range

/-!
# Sorting ranges

`clean_sort_range` of `kernel/range.c` and `sort` of `lib/sort.c`. The counters of `sort` are
indices times the element size, in an `int`; the model has the indices, and no result where the
size of the array does not fit.
-/

namespace LinuxKernel.Kernel

/-- `cmp_range`: the difference of the starts as an `s64`, cut to an `int`. -/
def cmpRange (x1 x2 : Range) : ℤ :=
  ((BitVec.ofNat 64 x1.start - BitVec.ofNat 64 x2.start).setWidth 32).toInt

/-- The size of a `struct range`. -/
def rangeSize : ℕ := 16

def sort (base : Ranges) (num : ℕ) : Option Ranges :=
  if num * rangeSize < 2 ^ 31 then
    some (heapSort (fun x1 x2 => decide (cmpRange x1 x2 < 0)) num base)
  else none

/-- The inner loop of `clean_sort_range` from `j = i + m` down: the last slot in use. -/
def lastUsed (range : Ranges) (i : ℕ) : ℕ → Option ℕ
  | 0 => none
  | m + 1 => if (range (i + m + 1)).fin ≠ 0 then some (i + m + 1) else lastUsed range i m

/-- The first loop of `clean_sort_range`, with at most `n` passes left. -/
def compactRanges : ℕ → ℕ → ℕ → Ranges → Ranges
  | 0, _, _, range => range
  | n + 1, i, k, range =>
    if i < k then
      if (range i).fin ≠ 0 then compactRanges n (i + 1) k range
      else
        match lastUsed range i (k - i) with
        | none => range
        | some j =>
          compactRanges n (i + 1) (j - 1)
            (Function.update (Function.update range i (range j)) j ⟨0, 0⟩)
    else range

/-- The loop that counts, `n` passes from `i` on. -/
def countRanges (range : Ranges) : ℕ → ℕ → ℕ
  | 0, _ => 0
  | n + 1, i => if (range i).fin = 0 then i else countRanges range n (i + 1)

def cleanSortRange (range : Ranges) (az : ℕ) : Option (Ranges × ℕ) :=
  let range := compactRanges az 0 (az - 1) range
  let nrRange := countRanges range az 0
  (sort range nrRange).map (·, nrRange)

end LinuxKernel.Kernel
