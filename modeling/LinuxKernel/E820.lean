import LinuxKernel.BubbleSort
import LinuxKernel.Word

/-!
# The memory map of the BIOS

`sanitize_e820_map` of `arch/x86/kernel/e820.c`. A pointer to an entry of the map is its index, and
the arrays of the function are big enough for a map of `max_nr_map` entries.
-/

namespace LinuxKernel.E820

structure E820Entry where
  addr : ℕ
  size : ℕ
  type : ℕ
deriving DecidableEq, Repr

structure ChangeMember where
  pbios : ℕ
  addr : ℕ
deriving DecidableEq, Repr

def entryAt (biosmap : List E820Entry) (i : ℕ) : E820Entry :=
  biosmap.getD i ⟨0, 0, 0⟩

/-- The change points of the entries from the `i`-th on. -/
def changePoints : ℕ → List E820Entry → List ChangeMember
  | _, [] => []
  | i, e :: es =>
    if e.size ≠ 0 then ⟨i, e.addr⟩ :: ⟨i, addMod 64 e.addr e.size⟩ :: changePoints (i + 1) es
    else changePoints (i + 1) es

/-- Whether the change point is the start of its entry. -/
def isStart (biosmap : List E820Entry) (c : ChangeMember) : Bool :=
  decide (c.addr = (entryAt biosmap c.pbios).addr)

def swapPoints (biosmap : List E820Entry) (cur last : ChangeMember) : Bool :=
  decide (cur.addr < last.addr) ||
    (decide (cur.addr = last.addr) && isStart biosmap cur && !isStart biosmap last)

lemma swapPoints_asymm (biosmap : List E820Entry) (a b : ChangeMember)
    (h : swapPoints biosmap a b = true) : swapPoints biosmap b a = false := by
  simp only [swapPoints, Bool.or_eq_true, Bool.and_eq_true, decide_eq_true_eq,
    Bool.not_eq_true'] at h
  simp only [swapPoints, Bool.or_eq_false_iff, decide_eq_false_iff_not]
  rcases h with h | ⟨⟨h, -⟩, hb⟩
  · exact ⟨by omega, by simp [show ¬ b.addr = a.addr by omega]⟩
  · exact ⟨by omega, by simp [hb]⟩

/-- The variables of the loop over the change points. `newBios` holds the entries before
`new_bios_entry` and `slot` is the one at it, whose old contents are not read. -/
structure Sweep where
  overlapList : List ℕ
  newBios : List E820Entry
  slot : E820Entry
  lastType : ℕ
  lastAddr : ℕ

/-- The entry is overwritten with the last one, and the list gets shorter. -/
def removeOverlap (overlapList : List ℕ) (pbios : ℕ) : List ℕ :=
  (overlapList.map fun p => if p = pbios then overlapList.getLastD p else p).dropLast

def currentType (biosmap : List E820Entry) (overlapList : List ℕ) : ℕ :=
  overlapList.foldl (fun t p => if t < (entryAt biosmap p).type then (entryAt biosmap p).type else t) 0

/-- The end of the entry that is being built, at `addr`. -/
def closeEntry (s : Sweep) (addr : ℕ) : Sweep :=
  if s.lastType ≠ 0 then
    let slot := { s.slot with size := subMod 64 addr s.lastAddr }
    if slot.size ≠ 0 then { s with newBios := s.newBios ++ [slot], slot := ⟨0, 0, 0⟩ }
    else { s with slot := slot }
  else s

/-- The start of an entry at `addr`. -/
def openEntry (s : Sweep) (addr type : ℕ) : Sweep :=
  if type ≠ 0 then
    { s with slot := { s.slot with addr := addr, type := type }, lastAddr := addr, lastType := type }
  else { s with lastType := type }

/-- The overlapping entries after a change point. -/
def overlapAfter (biosmap : List E820Entry) (s : Sweep) (c : ChangeMember) : List ℕ :=
  if isStart biosmap c then s.overlapList ++ [c.pbios] else removeOverlap s.overlapList c.pbios

/-- The loop over the change points, which is left when there is no room for another entry. -/
def sweep (biosmap : List E820Entry) (maxNrMap : ℕ) : Sweep → List ChangeMember → Sweep
  | s, [] => s
  | s, c :: cs =>
    let s := { s with overlapList := overlapAfter biosmap s c }
    let type := currentType biosmap s.overlapList
    if type ≠ s.lastType then
      let s' := closeEntry s c.addr
      if s.newBios.length < s'.newBios.length ∧ maxNrMap ≤ s'.newBios.length then s'
      else sweep biosmap maxNrMap (openEntry s' c.addr type) cs
    else sweep biosmap maxNrMap s cs

/-- How `sanitize_e820_map` ends: at the `BUG_ON`, or with a value and a map. -/
inductive Result where
  | bug
  | ret (value : ℤ) (biosmap : List E820Entry)

def sanitizeE820Map (biosmap : List E820Entry) (maxNrMap : ℕ) : Result :=
  if biosmap.length < 2 then .ret (-1) biosmap
  else if maxNrMap < biosmap.length then .bug
  else if biosmap.any fun e => decide (addMod 64 e.addr e.size < e.addr) then .ret (-1) biosmap
  else
    let points := BubbleSort.sort (swapPoints biosmap) (swapPoints_asymm biosmap)
      (changePoints 0 biosmap)
    .ret 0 (sweep biosmap maxNrMap ⟨[], [], ⟨0, 0, 0⟩, 0, 0⟩ points).newBios

end LinuxKernel.E820
