import Mathlib.Data.Nat.Bitwise

/-!
# UTF-8 and UTF-16

The conversions of `fs/nls/nls_base.c`. A string is the list of the units from the pointer on, `len`
of them. The result of a conversion is what was written, and `none` is a negative return value. The
buffer is not `NULL`.
-/

namespace LinuxKernel.Nls

structure Utf8Entry where
  cmask : ℕ
  cval : ℕ
  shift : ℕ
  lmask : ℕ
  lval : ℕ

def utf8Table : List Utf8Entry :=
  [⟨0x80, 0x00, 0 * 6, 0x7F, 0⟩, ⟨0xE0, 0xC0, 1 * 6, 0x7FF, 0x80⟩,
    ⟨0xF0, 0xE0, 2 * 6, 0xFFFF, 0x800⟩, ⟨0xF8, 0xF0, 3 * 6, 0x1FFFFF, 0x10000⟩,
    ⟨0xFC, 0xF8, 4 * 6, 0x3FFFFFF, 0x200000⟩, ⟨0xFE, 0xFC, 5 * 6, 0x7FFFFFFF, 0x4000000⟩]

def unicodeMax : ℕ := 0x0010ffff
def planeSize : ℕ := 0x00010000
def surrogateMask : ℕ := 0xfffff800
def surrogatePair : ℕ := 0x0000d800
def surrogateLow : ℕ := 0x00000400
def surrogateBits : ℕ := 0x000003ff

/-- The loop of `utf8_to_utf32`, with the bytes after `s`. -/
def utf8ToUtf32Loop (c0 : ℕ) : List Utf8Entry → ℕ → ℕ → List UInt8 → Option (ℕ × ℕ)
  | [], _, _, _ => none
  | t :: ts, nc, l, s =>
    if c0 &&& t.cmask = t.cval then
      if l &&& t.lmask < t.lval ∨ unicodeMax < l &&& t.lmask
          ∨ (l &&& t.lmask) &&& surrogateMask = surrogatePair then none
      else some (l &&& t.lmask, nc + 1)
    else
      match s with
      | [] => none
      | b :: s =>
        let c := (b.toNat ^^^ 0x80) &&& 0xFF
        if c &&& 0xC0 ≠ 0 then none else utf8ToUtf32Loop c0 ts (nc + 1) (l <<< 6 ||| c) s

/-- `utf8_to_utf32` of the bytes `c0 :: s`: the character and the number of bytes. -/
def utf8ToUtf32 (c0 : UInt8) (s : List UInt8) : Option (ℕ × ℕ) :=
  utf8ToUtf32Loop c0.toNat utf8Table 0 c0.toNat s

/-- The bytes after the first one. -/
def continuation (l c : ℕ) : List UInt8 :=
  if 0 < c then UInt8.ofNat (0x80 ||| ((l >>> (c - 6)) &&& 0x3F)) :: continuation l (c - 6) else []
termination_by c

def utf32ToUtf8Loop (l : ℕ) : List Utf8Entry → ℕ → Option (List UInt8)
  | [], _ => none
  | _ :: _, 0 => none
  | t :: ts, maxlen + 1 =>
    if l ≤ t.lmask then some (UInt8.ofNat (t.cval ||| l >>> t.shift) :: continuation l t.shift)
    else utf32ToUtf8Loop l ts maxlen

def utf32ToUtf8 (u maxlen : ℕ) : Option (List UInt8) :=
  if unicodeMax < u ∨ u &&& surrogateMask = surrogatePair then none
  else utf32ToUtf8Loop u utf8Table maxlen

/-- The units of a character. -/
def putUtf16 (u : ℕ) : List UInt16 :=
  if planeSize ≤ u then
    [UInt16.ofNat (surrogatePair ||| (((u - planeSize) >>> 10) &&& surrogateBits)),
      UInt16.ofNat (surrogatePair ||| surrogateLow ||| ((u - planeSize) &&& surrogateBits))]
  else [UInt16.ofNat u]

/-- `utf8s_to_utf16s`. The number of bytes of a character is at least one. -/
def utf8sToUtf16s : List UInt8 → Option (List UInt16)
  | [] => some []
  | b :: s =>
    if b = 0 then some []
    else if b.toNat &&& 0x80 ≠ 0 then
      match utf8ToUtf32 b s with
      | none => none
      | some (u, size) => (utf8sToUtf16s (s.drop (size - 1))).map (putUtf16 u ++ ·)
    else (utf8sToUtf16s s).map (b.toUInt16 :: ·)
termination_by s => s.length
decreasing_by
  · rw [List.length_drop, List.length_cons]
    omega
  · exact Nat.lt_add_one _

inductive Utf16Endian where
  | host | littleEndian | bigEndian
  deriving DecidableEq, Repr

/-- The bytes of a unit swapped. -/
def swab16 (c : UInt16) : UInt16 := (c <<< 8) ||| (c >>> 8)

/-- `get_utf16`, on a machine that is big endian or not. -/
def getUtf16 (bigHost : Bool) (c : UInt16) : Utf16Endian → ℕ
  | .host => c.toNat
  | .littleEndian => if bigHost then (swab16 c).toNat else c.toNat
  | .bigEndian => if bigHost then c.toNat else (swab16 c).toNat

def utf16sToUtf8s (bigHost : Bool) (endian : Utf16Endian) : List UInt16 → ℕ → List UInt8
  | [], _ => []
  | w :: pwcs, maxlen =>
    let u := getUtf16 bigHost w endian
    let put (u : ℕ) (rest : ℕ → List UInt8) : List UInt8 :=
      match utf32ToUtf8 u maxlen with
      | none => rest maxlen
      | some bytes => bytes ++ rest (maxlen - bytes.length)
    if maxlen = 0 then []
    else if u = 0 then []
    else if 0x7f < u then
      if u &&& surrogateMask = surrogatePair then
        if u &&& surrogateLow ≠ 0 then utf16sToUtf8s bigHost endian pwcs maxlen
        else
          match pwcs with
          | [] => []
          | w' :: pwcs' =>
            let v := getUtf16 bigHost w' endian
            if v &&& surrogateMask ≠ surrogatePair ∨ v &&& surrogateLow = 0 then
              utf16sToUtf8s bigHost endian (w' :: pwcs') maxlen
            else
              put (planeSize + ((u &&& surrogateBits) <<< 10) + (v &&& surrogateBits))
                (utf16sToUtf8s bigHost endian pwcs')
      else put u (utf16sToUtf8s bigHost endian pwcs)
    else UInt8.ofNat u :: utf16sToUtf8s bigHost endian pwcs (maxlen - 1)

end LinuxKernel.Nls
