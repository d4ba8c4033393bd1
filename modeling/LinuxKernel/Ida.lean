import LinuxKernel.Idr

/-!
# `lib/idr.c`: ids without pointers

An IDA is an IDR whose pointers are bitmaps of `IDA_BITMAP_BITS` ids. A bitmap hangs on one slot only, so
it is kept there by value; `free_bitmap` is the one that `ida_pre_get` put aside, with whatever it
contains. `IDA_BITMAP_BITS` is a `size_t`, so an `int` next to it is turned into an `unsigned long`.
-/

namespace LinuxKernel.Lib

def idaBitmapBits (L : LongSize) : ℕ := (128 / (L.bits / 8) - 1) * (L.bits / 8) * 8

def MAX_ID_BIT : ℕ := 2 ^ 31

structure IdaBitmap (L : LongSize) where
  nrBusy : ℤ
  bitmap : Fin (idaBitmapBits L) → Bool

abbrev IdaSlot (L : LongSize) := IdrSlot (idrBits L) (IdaBitmap L)

abbrev IdaLayer (L : LongSize) := IdrLayer (idrBits L) (IdaBitmap L)

abbrev IdaPath (L : LongSize) := IdrPath (idrBits L) (IdaBitmap L)

structure Ida (L : LongSize) where
  idr : Idr (idrBits L) (IdaBitmap L)
  freeBitmap : Option (IdaBitmap L)

variable {L : LongSize}

/-- An `int` as an `unsigned long`. -/
def toUlong (L : LongSize) (i : CInt) : ℕ := (i.signExtend L.bits).toNat

/-- `i / IDA_BITMAP_BITS`, stored in an `int`. -/
def idaChunk (L : LongSize) (i : CInt) : CInt := BitVec.ofNat 32 (toUlong L i / idaBitmapBits L)

lemma idaBitmapBits_pos (L : LongSize) : 0 < idaBitmapBits L := by
  cases L <;> decide

def idaOffset (L : LongSize) (i : CInt) : Fin (idaBitmapBits L) :=
  ⟨toUlong L i % idaBitmapBits L, Nat.mod_lt _ (idaBitmapBits_pos L)⟩

def idaInit : Ida L := ⟨idrInit, none⟩

def freeBitmap (ida : Ida L) (bitmap : IdaBitmap L) : Ida L :=
  if ida.freeBitmap.isNone then { ida with freeBitmap := some bitmap } else ida

/-- `ida_pre_get`: `avail` layers can be had, and `kmalloc` gives `bitmap`. -/
def idaPreGet (avail : ℕ) (bitmap : Option (IdaBitmap L)) (ida : Ida L) : Bool × Ida L :=
  let (ret, idr) := idrPreGet avail ida.idr
  let ida := { ida with idr := idr }
  if ret then
    if ida.freeBitmap.isNone then
      match bitmap with
      | none => (false, ida)
      | some bitmap => (true, freeBitmap ida bitmap)
    else (true, ida)
  else (false, ida)

/-- The variables at `restart:`. -/
structure IdaState (L : LongSize) where
  ida : Ida L
  idrId : CInt
  offset : ℕ

/-- "Throw away extra resources one by one after each successful allocation." -/
def throwAway (ida : Ida L) : Ida L :=
  if ida.idr.free.cnt ≠ 0 ∨ ida.freeBitmap.isSome then
    match getFromFreeList ida.idr.free with
    | none => ida
    | some (_, free) => { ida with idr := { ida.idr with free := free } }
  else ida

/-- The rest of a pass, with `bitmap` at slot `idr_id` of the leaf `p`. -/
def idaTake (s : IdaState L) (p : IdaLayer L) (pa : IdaPath L) (layers : ℕ)
    (free : IdFree (idrBits L) (IdaBitmap L)) (bitmap : IdaBitmap L) :
    Pass (IdaState L) (Option (Except ℤ CInt × Ida L)) :=
  let ida : Ida L := { s.ida with idr := ⟨plugAll pa p.slot, layers, free⟩ }
  match findNext (fun i => !bitmap.bitmap i) s.offset with
  | none => .again ⟨ida, s.idrId + 1, 0⟩
  | some t =>
    let id := BitVec.ofNat 32 (toUlong L s.idrId * idaBitmapBits L + t)
    if MAX_ID_BIT ≤ id.toNat then .leave (some (.error (-ENOSPC), ida))
    else
      let bitmap : IdaBitmap L := ⟨bitmap.nrBusy + 1, Function.update bitmap.bitmap t true⟩
      let p : IdaLayer L :=
        { p with ary := Function.update p.ary (idIndex (idrBits L) 0 s.idrId) (.leaf bitmap) }
      let top := if bitmap.nrBusy = idaBitmapBits L then idrMarkFull s.idrId p pa else plugAll pa p.slot
      .leave (some (.ok id, throwAway { s.ida with idr := ⟨top, layers, free⟩ }))

/-- One pass from `restart:`. -/
def idaPass (s : IdaState L) : Pass (IdaState L) (Option (Except ℤ CInt × Ida L)) :=
  match idrGetEmptySlot s.ida.idr s.idrId with
  | some (.stop rc idp) => .leave (some (.error (idrRcToErrno rc), { s.ida with idr := idp }))
  | some (.found t p pa layers free) =>
    let ida : Ida L := { s.ida with idr := ⟨plugAll pa p.slot, layers, free⟩ }
    if MAX_ID_BIT ≤ toUlong L t * idaBitmapBits L % 2 ^ L.bits then .leave (some (.error (-ENOSPC), ida))
    else
      let offset := if t ≠ s.idrId then 0 else s.offset
      match p.ary (idIndex (idrBits L) 0 t) with
      | .leaf bitmap => idaTake ⟨ida, t, offset⟩ p pa layers free bitmap
      | .null =>
        match ida.freeBitmap with
        | none => .leave (some (.error (-EAGAIN), ida))
        | some _ =>
          -- the memset
          let bitmap : IdaBitmap L := ⟨0, fun _ => false⟩
          let p : IdaLayer L := ⟨{ p.info with count := p.info.count + 1 },
            Function.update p.ary (idIndex (idrBits L) 0 t) (.leaf bitmap)⟩
          idaTake ⟨{ ida with freeBitmap := none }, t, offset⟩ p pa layers free bitmap
      | .node _ _ => .leave none
  | _ => .leave none

def idaGetNewAbove (ida : Ida L) (startingId : CInt) : Option (Except ℤ CInt × Ida L) :=
  (Pass.run idaPass (2 ^ 32) ⟨ida, idaChunk L startingId, idaOffset L startingId⟩).join

/-- `ida_remove`; a NULL bitmap would be dereferenced. -/
def idaRemove (ida : Ida L) (id : CInt) : Option (Ida L) :=
  let idrId := idaChunk L id
  let (pa, p) := subRemoveDown idrId (ida.idr.layers - 1) [] ida.idr.top
  let n := idIndex (idrBits L) 0 idrId
  match p with
  | .node info ary =>
    let info := info.clearBit n
    match ary n with
    | .leaf bitmap =>
      if bitmap.bitmap (idaOffset L id) then
        let bitmap : IdaBitmap L :=
          ⟨bitmap.nrBusy - 1, Function.update bitmap.bitmap (idaOffset L id) false⟩
        let ary := Function.update ary n (.leaf bitmap)
        if bitmap.nrBusy = 0 then
          -- "to please idr_remove()"
          let idr := { ida.idr with top := plugAll pa (.node (info.setBit n) ary) }
          some (freeBitmap { ida with idr := idrRemove idr idrId } bitmap)
        else some { ida with idr := { ida.idr with top := plugAll pa (.node info ary) } }
      else some { ida with idr := { ida.idr with top := plugAll pa (.node info ary) } }
    | _ => none
  | _ => some { ida with idr := { ida.idr with top := plugAll pa p } }

end LinuxKernel.Lib
