import Mathlib

/-!
# Ranges

`kernel/range.c`: arrays of half-open ranges. A slot whose end is 0 is free.
-/

namespace LinuxKernel.Kernel

/-- `struct range`; `fin` is its `end`. -/
structure Range where
  start : ℕ
  fin : ℕ
deriving DecidableEq

abbrev Ranges := ℕ → Range

def addRange (range : Ranges) (az nrRange start fin : ℕ) : Ranges × ℕ :=
  if fin ≤ start then (range, nrRange)
  else if az ≤ nrRange then (range, nrRange)
  else (Function.update range nrRange ⟨start, fin⟩, nrRange + 1)

/-- The loop of `add_range_with_merge`, `n` passes from `i` on: the array when a range was
merged. -/
def tryMerge (range : Ranges) (start fin : ℕ) : ℕ → ℕ → Option Ranges
  | 0, _ => none
  | n + 1, i =>
    if (range i).fin = 0 then tryMerge range start fin n (i + 1)
    else
      let commonStart := max (range i).start start
      let commonEnd := min (range i).fin fin
      if commonEnd < commonStart then tryMerge range start fin n (i + 1)
      else
        some (Function.update range i ⟨min (range i).start start, max (range i).fin fin⟩)

def addRangeWithMerge (range : Ranges) (az nrRange start fin : ℕ) : Ranges × ℕ :=
  if fin ≤ start then (range, nrRange)
  else
    match tryMerge range start fin nrRange 0 with
    | some range => (range, nrRange)
    | none => addRange range az nrRange start fin

/-- The search for a spare slot, `n` passes from `i` on. -/
def findSpare (range : Ranges) : ℕ → ℕ → Option ℕ
  | 0, _ => none
  | n + 1, i => if (range i).fin = 0 then some i else findSpare range n (i + 1)

/-- The body of the loop of `subtract_range`. -/
def subtractSlot (range : Ranges) (az start fin j : ℕ) : Ranges :=
  if (range j).fin = 0 then range
  else if start ≤ (range j).start ∧ (range j).fin ≤ fin then Function.update range j ⟨0, 0⟩
  else if start ≤ (range j).start ∧ fin < (range j).fin ∧ (range j).start < fin then
    Function.update range j ⟨fin, (range j).fin⟩
  else if (range j).start < start ∧ (range j).fin ≤ fin ∧ start < (range j).fin then
    Function.update range j ⟨(range j).start, start⟩
  else if (range j).start < start ∧ fin < (range j).fin then
    match findSpare range az 0 with
    | some i =>
      Function.update (Function.update range i ⟨fin, (range j).fin⟩) j ⟨(range j).start, start⟩
    | none => Function.update range j ⟨(range j).start, start⟩
  else range

/-- The loop of `subtract_range`, `n` passes from `j` on. -/
def subtractFrom (az start fin : ℕ) : ℕ → ℕ → Ranges → Ranges
  | 0, _, range => range
  | n + 1, j, range => subtractFrom az start fin n (j + 1) (subtractSlot range az start fin j)

def subtractRange (range : Ranges) (az start fin : ℕ) : Ranges :=
  if fin ≤ start then range else subtractFrom az start fin az 0 range

end LinuxKernel.Kernel
