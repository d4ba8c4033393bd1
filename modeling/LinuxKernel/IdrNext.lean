import LinuxKernel.Idr

/-!
# `idr_get_next` and `idr_for_each`

The height `n` of the walk is a number of layers `l`, with `n = IDR_BITS * l`; `pa` is `pa[]` below
`paa`, the nearest layer first. When the id has passed `max` the code takes one element too many off
`pa[]`; the loop then ends and the element is not looked at, so it is `NULL` here. `idr_for_each`
keeps `paa` itself as well, as an index into `pa[]`, with all the values it takes.
-/

namespace LinuxKernel.Lib

variable {b : ℕ} {α : Type*}

def fls (x : CInt) : ℕ := x.toNat.size

/-- The locals of `idr_get_next`. -/
structure NextWalk (b : ℕ) (α : Type*) where
  id : CInt
  l : ℕ
  p : IdrSlot b α
  pa : List (IdrSlot b α)

def nextDescend (id : CInt) : ℕ → IdrSlot b α → List (IdrSlot b α) → NextWalk b α
  | l + 1, .node info ary, pa => nextDescend id l (ary (idIndex b l id)) (.node info ary :: pa)
  | l, p, pa => ⟨id, l, p, pa⟩

def nextPop (id : CInt) : ℕ → IdrSlot b α → List (IdrSlot b α) → NextWalk b α
  | l, p, [] => if b * l < fls id then ⟨id, l + 1, .null, []⟩ else ⟨id, l, p, []⟩
  | l, p, q :: pa => if b * l < fls id then nextPop id (l + 1) q pa else ⟨id, l, p, q :: pa⟩

/-- The body of `while (id < max)`: the result is `p` and the id for `*nextidp`. -/
def nextPass (max : CInt) (s : NextWalk b α) : Pass (NextWalk b α) (Option (IdrSlot b α × CInt)) :=
  if s.id.slt max then
    let d := nextDescend s.id s.l s.p s.pa
    if d.p.isNull then .again (nextPop (d.id + 1#32 <<< (b * d.l)) d.l d.p d.pa)
    else .leave (some (d.p, d.id))
  else .leave none

/-- The pointer returned and `*nextidp` afterwards. -/
def idrGetNext (idp : Idr b α) (nextid : CInt) : Option (IdrSlot b α × CInt) :=
  let max := 1#32 <<< (b * idp.layers)
  if idp.top.isNull then some (.null, nextid)
  else
    (Pass.run (nextPass max) (max.toNat + 1) ⟨nextid, idp.layers, idp.top, []⟩).map
      (·.getD (.null, nextid))

/-- `pa[]` below `paa`, `paa - pa`, and the values `paa - pa` has had, the latest first. -/
structure PathStack (b : ℕ) (α : Type*) where
  below : List (IdrSlot b α)
  paa : ℤ
  seen : List ℤ

def PathStack.push (pa : PathStack b α) (p : IdrSlot b α) : PathStack b α :=
  ⟨p :: pa.below, pa.paa + 1, (pa.paa + 1) :: pa.seen⟩

def PathStack.pop (pa : PathStack b α) : IdrSlot b α × PathStack b α :=
  (pa.below.headD .null, ⟨pa.below.tail, pa.paa - 1, (pa.paa - 1) :: pa.seen⟩)

structure EachWalk (b : ℕ) (α : Type*) where
  id : CInt
  l : ℕ
  p : IdrSlot b α
  pa : PathStack b α
  calls : List (CInt × IdrSlot b α)

def eachDescend (id : CInt) : ℕ → IdrSlot b α → PathStack b α → ℕ × IdrSlot b α × PathStack b α
  | l + 1, .node info ary, pa => eachDescend id l (ary (idIndex b l id)) (pa.push (.node info ary))
  | l, p, pa => (l, p, pa)

/-- `while (n < fls(id))`; each round raises `n`, so `fls(id)` rounds are enough. -/
def eachPop (id : CInt) : ℕ → ℕ → IdrSlot b α → PathStack b α → ℕ × IdrSlot b α × PathStack b α
  | 0, l, p, pa => (l, p, pa)
  | more + 1, l, p, pa =>
    if b * l < fls id then eachPop id more (l + 1) pa.pop.1 pa.pop.2 else (l, p, pa)

/-- The body of `while (id < max)`, left with `error`. -/
def eachPass (fn : CInt → IdrSlot b α → ℤ) (max : CInt) (s : EachWalk b α) :
    Pass (EachWalk b α) (ℤ × EachWalk b α) :=
  if s.id.slt max then
    let (l, p, pa) := eachDescend s.id s.l s.p s.pa
    let calls := if p.isNull then s.calls else s.calls ++ [(s.id, p)]
    let error := if p.isNull then 0 else fn s.id p
    if error ≠ 0 then .leave (error, ⟨s.id, l, p, pa, calls⟩)
    else
      let id := s.id + 1#32 <<< (b * l)
      let (l, p, pa) := eachPop id (fls id) l p pa
      .again ⟨id, l, p, pa, calls⟩
  else .leave (0, s)

def idrForEach (idp : Idr b α) (fn : CInt → IdrSlot b α → ℤ) :
    Option (ℤ × List (CInt × IdrSlot b α) × List ℤ) :=
  let max := 1#32 <<< (b * idp.layers)
  (Pass.run (eachPass fn max) (max.toNat + 1) ⟨0#32, idp.layers, idp.top, ⟨[], 0, [0]⟩, []⟩).map
    fun r => (r.1, r.2.calls, r.2.pa.seen)

end LinuxKernel.Lib
