import Mathlib.Data.BitVec
import Mathlib.Logic.Function.Basic

/-!
# Swap counts and their continuation

The reference counts of `mm/swapfile.c`: a byte of `swap_map` for each slot, continued in pages that
the slots of one page of `swap_map` share. A `BUG_ON` or a `VM_BUG_ON` that fires is `none`. Only one
swap area is modelled: an entry is its offset, and `swap_list`, `nr_swap_pages` and the notifiers of
a freed slot are left out.
-/

namespace LinuxKernel.Mm

def swapMapMax : BitVec 8 := 0x3e

def swapMapBad : BitVec 8 := 0x3f

def swapHasCache : BitVec 8 := 0x40

def swapContMax : BitVec 8 := 0x7f

def countContinued : BitVec 8 := 0x80

def swapMapShmem : BitVec 8 := 0xbf

/-- The bytes of a continuation page. -/
abbrev ContPage := ℕ → BitVec 8

inductive SwapError where
  | inval | exist | noent | nomem
  deriving DecidableEq, Repr

/-- `struct swap_info_struct`. `cont` gives for each page of `swap_map` the list `head->lru` of its
continuation pages, once `page_private(head)` is `SWP_CONTINUED`. -/
structure SwapInfo where
  used : Bool
  continued : Bool
  max : ℕ
  swapMap : ℕ → BitVec 8
  lowestBit : ℕ
  highestBit : ℕ
  pages : ℕ
  inusePages : ℕ
  cont : ℕ → Option (List ContPage)

def SwapInfo.setMap (si : SwapInfo) (offset : ℕ) (x : BitVec 8) : SwapInfo :=
  { si with swapMap := Function.update si.swapMap offset x }

/-- Changing the list of continuation pages of the page `head` of `swap_map`. -/
def SwapInfo.setCont (si : SwapInfo) (head : ℕ) (pages : List ContPage) : SwapInfo :=
  { si with cont := Function.update si.cont head (some pages) }

/-- Whether `swap_info_get` finds the entry to be in use. -/
def swapInfoGet (si : SwapInfo) (offset : ℕ) : Bool :=
  si.used && decide (offset < si.max) && decide (si.swapMap offset ≠ 0)

/-- The way back from an increment: each page up to the head is given `COUNT_CONTINUED`. The pages
passed come nearest first. -/
def rewindIncrement (offset : ℕ) : List ContPage → List ContPage → List ContPage
  | [], next => next
  | page :: prev, next =>
    rewindIncrement offset prev (Function.update page offset countContinued :: next)

/-- "Think of how you add 1 to 999": from the page reached, with the pages passed. The result is
`some none` if a continuation page is missing. -/
def incrementFrom (offset : ℕ) : List ContPage → List ContPage → Option (Option (List ContPage))
  | _, [] => none
  | prev, page :: next =>
    if page offset = swapContMax ||| countContinued then incrementFrom offset (page :: prev) next
    else if page offset = swapContMax then
      match next with
      | [] => some none
      | page' :: next =>
        some (some (rewindIncrement offset (page :: prev) (Function.update page' offset 1 :: next)))
    else
      some (some (rewindIncrement offset prev
        (Function.update page offset (page offset + 1) :: next)))

/-- The way back from a decrement, with the final value of `count`. -/
def rewindDecrement (offset : ℕ) :
    BitVec 8 → List ContPage → List ContPage → List ContPage × BitVec 8
  | count, [], next => (next, count)
  | count, page :: prev, next =>
    rewindDecrement offset countContinued prev
      (Function.update page offset (swapContMax ||| count) :: next)

/-- "Think of how you subtract 1 from 1000". -/
def decrementFrom (offset : ℕ) :
    List ContPage → List ContPage → Option (List ContPage × BitVec 8)
  | _, [] => none
  | prev, page :: next =>
    if page offset = countContinued then decrementFrom offset (page :: prev) next
    else if page offset = 0 then none
    else
      let page := Function.update page offset (page offset - 1)
      let count := if page offset = 0 then 0 else countContinued
      some (rewindDecrement offset count prev (page :: next))

section

variable (pageSize : ℕ)

/-- With no page on `head->lru` the code reads past the list: `none`. -/
def swapCountContinued (si : SwapInfo) (offset : ℕ) (count : BitVec 8) :
    Option (SwapInfo × Bool) :=
  let head := offset / pageSize
  let offset := offset % pageSize
  match si.cont head with
  | none => if count &&& countContinued ≠ 0 then none else some (si, false)
  | some [] => none
  | some (page :: next) =>
    if count = swapMapMax then
      some (si.setCont head (Function.update page offset 1 :: next), true)
    else if count = swapMapMax ||| countContinued then
      match incrementFrom offset [] (page :: next) with
      | none => none
      | some none => some (si, false)
      | some (some pages) => some (si.setCont head pages, true)
    else if count ≠ countContinued then none
    else
      match decrementFrom offset [] (page :: next) with
      | none => none
      | some (pages, count) => some (si.setCont head pages, decide (count = countContinued))

/-- The branch of `__swap_duplicate` for a reference from a page table: the new count. -/
def duplicateCount (si : SwapInfo) (offset : ℕ) (usage count hasCache : BitVec 8) :
    Option (SwapInfo × BitVec 8 × Except SwapError Unit) :=
  if count ≠ 0 ∨ hasCache ≠ 0 then
    if count &&& ~~~countContinued < swapMapMax then some (si, count + usage, .ok ())
    else if swapMapMax < count &&& ~~~countContinued then some (si, count, .error .inval)
    else
      match swapCountContinued pageSize si offset count with
      | none => none
      | some (si, true) => some (si, countContinued, .ok ())
      | some (si, false) => some (si, count, .error .nomem)
  else some (si, count, .error .noent)

def swapDuplicateUsage (si : SwapInfo) (offset : ℕ) (usage : BitVec 8) :
    Option (SwapInfo × Except SwapError Unit) :=
  if si.max ≤ offset then some (si, .error .inval)
  else
    let hasCache := si.swapMap offset &&& swapHasCache
    let count := si.swapMap offset &&& ~~~swapHasCache
    if usage = swapHasCache then
      if hasCache = 0 ∧ count ≠ 0 then some (si.setMap offset (count ||| swapHasCache), .ok ())
      else if hasCache ≠ 0 then some (si.setMap offset (count ||| hasCache), .error .exist)
      else some (si.setMap offset (count ||| hasCache), .error .noent)
    else
      match duplicateCount pageSize si offset usage count hasCache with
      | none => none
      | some (si, count, err) => some (si.setMap offset (count ||| hasCache), err)

/-- The loop of `add_swap_count_continuation`: whether no page of the list has room. -/
def lacksPage (offset : ℕ) : BitVec 8 → List ContPage → Bool
  | _, [] => true
  | count, page :: next =>
    if count &&& countContinued = 0 then false
    else if page offset &&& ~~~countContinued ≠ swapContMax then false
    else lacksPage offset (page offset) next

/-- `page` is what `alloc_page` returns; its bytes are not cleared. -/
def addSwapCountContinuation (si : SwapInfo) (offset : ℕ) (page : Option ContPage) :
    Option (SwapInfo × Except SwapError Unit) :=
  if swapInfoGet si offset = false then some (si, .ok ())
  else
    let count := si.swapMap offset &&& ~~~swapHasCache
    if count &&& ~~~countContinued ≠ swapMapMax then some (si, .ok ())
    else
      match page with
      | none => some (si, .error .nomem)
      | some page =>
        let head := offset / pageSize
        match si.cont head with
        | none =>
          if count &&& countContinued ≠ 0 then none
          else some ({ si.setCont head [page] with continued := true }, .ok ())
        | some pages =>
          if lacksPage (offset % pageSize) count pages then
            some (si.setCont head (pages ++ [page]), .ok ())
          else some (si, .ok ())

/-- The loop of `swap_duplicate`, at most `n` rounds of it: `none` if they are not enough. The pages
that `alloc_page` returns are given. -/
def swapDuplicate (page : ℕ → Option ContPage) :
    ℕ → SwapInfo → ℕ → Option (SwapInfo × Except SwapError Unit)
  | 0, _, _ => none
  | n + 1, si, offset =>
    match swapDuplicateUsage pageSize si offset 1 with
    | none => none
    | some (si, .error .nomem) =>
      match addSwapCountContinuation pageSize si offset (page n) with
      | none => none
      | some (si, .error err) => some (si, .error err)
      | some (si, .ok ()) => swapDuplicate page n si offset
    | some (si, _) => some (si, .ok ())

/-- The new count of `swap_entry_free` when a reference from a page table is dropped. -/
def freeCount (si : SwapInfo) (offset : ℕ) (count : BitVec 8) : Option (SwapInfo × BitVec 8) :=
  if count = swapMapShmem then some (si, 0)
  else if count &&& ~~~countContinued ≤ swapMapMax then
    if count = countContinued then
      match swapCountContinued pageSize si offset count with
      | none => none
      | some (si, true) => some (si, swapMapMax ||| countContinued)
      | some (si, false) => some (si, swapMapMax)
    else some (si, count - 1)
  else some (si, count)

/-- "free if no reference". -/
def SwapInfo.release (si : SwapInfo) (offset : ℕ) : SwapInfo :=
  { si with
    lowestBit := if offset < si.lowestBit then offset else si.lowestBit
    highestBit := if si.highestBit < offset then offset else si.highestBit
    inusePages := si.inusePages - 1 }

def storeUsage (si : SwapInfo) (offset : ℕ) (usage : BitVec 8) : SwapInfo × BitVec 8 :=
  if usage = 0 then ((si.setMap offset usage).release offset, usage)
  else (si.setMap offset usage, usage)

def swapEntryFree (si : SwapInfo) (offset : ℕ) (usage : BitVec 8) : Option (SwapInfo × BitVec 8) :=
  let hasCache := si.swapMap offset &&& swapHasCache
  let count := si.swapMap offset &&& ~~~swapHasCache
  if usage = swapHasCache then
    if hasCache = 0 then none else some (storeUsage si offset count)
  else
    match freeCount pageSize si offset count with
    | none => none
    | some (si, count) => some (storeUsage si offset (count ||| hasCache))

def swapFree (si : SwapInfo) (offset : ℕ) : Option SwapInfo :=
  if swapInfoGet si offset then (swapEntryFree pageSize si offset 1).map Prod.fst else some si

def swapcacheFree (si : SwapInfo) (offset : ℕ) : Option SwapInfo :=
  if swapInfoGet si offset then (swapEntryFree pageSize si offset swapHasCache).map Prod.fst
  else some si

end

/-- The end of `scan_swap_map`, which takes the free slot it has found. -/
def takeSlot (si : SwapInfo) (offset : ℕ) (usage : BitVec 8) : SwapInfo :=
  let lowestBit := if offset = si.lowestBit then si.lowestBit + 1 else si.lowestBit
  let highestBit := if offset = si.highestBit then si.highestBit - 1 else si.highestBit
  let full := si.inusePages + 1 = si.pages
  { si.setMap offset usage with
    lowestBit := if full then si.max else lowestBit
    highestBit := if full then 0 else highestBit
    inusePages := si.inusePages + 1 }

end LinuxKernel.Mm
