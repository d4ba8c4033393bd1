import LinuxKernel.Loop

/-!
# `mm/slob.c`: one page of the SLOB allocator

A pointer into the page is its offset from the page's start, in units of `SLOB_UNIT` bytes; the page
end is `pageUnits`. The memory of the page gives each unit its `slobidx_t`. Sizes and offsets of a
page fit a `slobidx_t`, so they are integers; the `int` into which `slob_page_alloc` puts the number
of units of a `size_t` is cut to 32 bits.

`slob_page_free` is a flag of the page; the list it stands for, and the locks, are left out.
-/

namespace LinuxKernel.Slob

/-- `SLOB_UNIT` is a power of two, and the page of `PAGE_SIZE` bytes starts at a multiple of that.
-/
structure Conf where
  unitShift : ℕ
  pageUnits : ℕ
  base : ℕ
  pageUnits_pos : 0 < pageUnits
  page_lt : 2 ^ unitShift * pageUnits < 2 ^ 31
  base_dvd : 2 ^ unitShift * pageUnits ∣ base

abbrev Mem := ℤ → ℤ

/-- `struct slob_page` and the memory of the page. -/
structure SlobPage where
  mem : Mem
  free : ℤ
  units : ℤ
  onList : Bool

def setSlob (mem : Mem) (s size next : ℤ) : Mem :=
  if 1 < size then Function.update (Function.update mem s size) (s + 1) next
  else Function.update mem s (-next)

def slobUnits (mem : Mem) (s : ℤ) : ℤ := if 0 < mem s then mem s else 1

def slobNext (mem : Mem) (s : ℤ) : ℤ := if mem s < 0 then - mem s else mem (s + 1)

variable (c : Conf)

def slobLast (mem : Mem) (s : ℤ) : Bool := slobNext mem s % c.pageUnits = 0

/-- `SLOB_UNITS(size)`, a `size_t` of 64 bits. -/
def unitsOf (size : ℕ) : ℕ := (size + (2 ^ c.unitShift - 1)) % 2 ^ 64 / 2 ^ c.unitShift

/-- The address of a unit, in bytes. -/
def addr (s : ℤ) : ℤ := c.base + 2 ^ c.unitShift * s

/-- `aligned - cur`. -/
def alignDelta (align : ℕ) (cur : ℤ) : ℤ :=
  if align = 0 then 0
  else ((addr c cur + align - 1) / align * align - addr c cur) / 2 ^ c.unitShift

/-- `if (prev) set_slob(prev, slob_units(prev), next); else sp->free = next;` -/
def linkFrom (mem : Mem) (free : ℤ) (prev : Option ℤ) (next : ℤ) : Mem × ℤ :=
  match prev with
  | some q => (setSlob mem q (slobUnits mem q) next, free)
  | none => (mem, next)

/-- "exact fit? unlink." or "fragment". -/
def slobCut (mem : Mem) (free : ℤ) (prev : Option ℤ) (cur avail units : ℤ) : Mem × ℤ :=
  let next := slobNext mem cur
  if avail = units then linkFrom mem free prev next
  else
    let l := linkFrom mem free prev (cur + units)
    (setSlob l.1 (cur + units) (avail - units) next, l.2)

/-- "need to fragment head to align?" -/
def slobHead (mem : Mem) (cur avail delta : ℤ) : Mem :=
  setSlob (setSlob mem (cur + delta) (avail - delta) (slobNext mem cur)) cur delta (cur + delta)

/-- The room is there: the block returned and the page. -/
def slobTake (p : SlobPage) (prev : Option ℤ) (cur units delta : ℤ) : ℤ × SlobPage :=
  let r :=
    if delta ≠ 0 then
      let mem := slobHead p.mem cur (slobUnits p.mem cur) delta
      slobCut mem p.free (some cur) (cur + delta) (slobUnits mem (cur + delta)) units
    else slobCut p.mem p.free prev cur (slobUnits p.mem cur) units
  (cur + delta, ⟨r.1, r.2, p.units - units, if p.units - units = 0 then false else p.onList⟩)

/-- One round of the loop over `prev` and `cur`. -/
def allocPass (p : SlobPage) (units : ℤ) (align : ℕ) (s : Option ℤ × ℤ) :
    Pass (Option ℤ × ℤ) (Option ℤ × SlobPage) :=
  let delta := alignDelta c align s.2
  if units + delta ≤ slobUnits p.mem s.2 then
    let r := slobTake p s.1 s.2 units delta
    .leave (some r.1, r.2)
  else if slobLast c p.mem s.2 then .leave (none, p)
  else .again (some s.2, slobNext p.mem s.2)

/-- `slob_page_alloc`: the block, or NULL, and the page. -/
def slobPageAlloc (p : SlobPage) (size align : ℕ) : Option (Option ℤ × SlobPage) :=
  Pass.run (allocPass c p (Int.bmod (unitsOf c size) (2 ^ 32)) align) (c.pageUnits + 1)
  (none, p.free)

/-- `while (b > next)`, over `prev` and `next`. -/
def freePass (mem : Mem) (b : ℤ) (s : ℤ × ℤ) : Pass (ℤ × ℤ) (ℤ × ℤ) :=
  if s.2 < b then .again (s.2, slobNext mem s.2) else .leave s

/-- The new block joins the one at `next`, if they touch. -/
def freeNext (mem : Mem) (b units prev next : ℤ) : Mem :=
  if ¬ slobLast c mem prev ∧ b + units = next then
    setSlob mem b (units + slobUnits mem next) (slobNext mem next)
  else setSlob mem b units next

/-- And it joins the one at `prev`, if they touch. -/
def freePrev (mem : Mem) (b prev : ℤ) : Mem :=
  if prev + slobUnits mem prev = b then
    setSlob mem prev (slobUnits mem b + slobUnits mem prev) (slobNext mem b)
  else setSlob mem prev (slobUnits mem prev) b

inductive FreeResult where
  /-- "Go directly to page allocator." -/
  | left
  | kept (p : SlobPage)

/-- `slob_free` of a block of the page. -/
def slobFree (p : SlobPage) (b : ℤ) (size : ℕ) : Option FreeResult :=
  let units : ℤ := unitsOf c size
  if p.units + units = c.pageUnits then some .left
  else if ¬ p.onList then
    some (.kept ⟨setSlob p.mem b units ((b + c.pageUnits) / c.pageUnits * c.pageUnits), b, units,
    true⟩)
  else if b < p.free then
    if b + units = p.free then
      let next := slobNext p.mem p.free
      some (.kept ⟨setSlob p.mem b (units + slobUnits p.mem p.free) next, b, p.units + units, true⟩)
    else some (.kept ⟨setSlob p.mem b units p.free, b, p.units + units, true⟩)
  else
    (Pass.run (freePass p.mem b) (c.pageUnits + 1) (p.free, slobNext p.mem p.free)).map fun s =>
      .kept ⟨freePrev (freeNext c p.mem b units s.1 s.2) b s.1, p.free, p.units + units, true⟩

/-- The page as `slob_alloc` makes it. -/
def freshPage (mem : Mem) : SlobPage :=
  ⟨setSlob mem 0 c.pageUnits c.pageUnits, 0, c.pageUnits, true⟩

/-- A block given out, as it was asked for. -/
structure Live where
  start : ℤ
  size : ℕ
  align : ℕ

/-- The units of a block. -/
def Live.has (blk : Live) (x : ℤ) : Prop := blk.start ≤ x ∧ x < blk.start + unitsOf c blk.size

/-- The states of a page that calls meeting `ok` reach, with the blocks given out. The owner of a
block writes to it at any time. -/
inductive Reach (ok : SlobPage → ℕ → ℕ → Prop) : SlobPage → List Live → Prop
  | fresh (mem : Mem) : Reach ok (freshPage c mem) []
  | write {p : SlobPage} {live : List Live} (mem : Mem) : Reach ok p live →
      (∀ x, (∀ blk ∈ live, ¬ blk.has c x) → mem x = p.mem x) → Reach ok { p with mem := mem } live
  | alloc {p p' : SlobPage} {live : List Live} {size align : ℕ} {b : ℤ} : Reach ok p live →
      ok p size align → slobPageAlloc c p size align = some (some b, p') →
      Reach ok p' (⟨b, size, align⟩ :: live)
  | noRoom {p p' : SlobPage} {live : List Live} {size align : ℕ} : Reach ok p live →
      ok p size align → slobPageAlloc c p size align = some (none, p') → Reach ok p' live
  | free {p p' : SlobPage} {before after : List Live} {blk : Live} :
      Reach ok p (before ++ blk :: after) → slobFree c p blk.start blk.size = some (.kept p') →
      Reach ok p' (before ++ after)

end LinuxKernel.Slob
