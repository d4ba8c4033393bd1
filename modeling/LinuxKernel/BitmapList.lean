import LinuxKernel.Bitmap
import LinuxKernel.Loop

/-!
# Bitmaps as lists of ranges

`bitmap_scnlistprintf` and `bitmap_parselist` of `lib/bitmap.c`, with the search for set bits of
`lib/find_next_bit.c` and the reading of numbers of `lib/vsprintf.c`. A string is a list of bytes;
past its end a NUL is read.
-/

namespace LinuxKernel.Lib

def ERANGE : ℤ := 34

section

variable {L : LongSize}

/-- `__ffs`, of a word that is not zero. -/
def ffs {w : ℕ} (x : BitVec w) : ℕ :=
  ((findNext (fun i : Fin w => x.getLsbD i) 0).map Fin.val).getD 0

/-- From `found_first:`. -/
def foundFirst (tmp : BitVec L.bits) (result size : ℕ) : ℕ :=
  let tmp := tmp &&& (BitVec.allOnes L.bits >>> (L.bits - size))
  if tmp = 0 then result + size else result + ffs tmp

/-- The loop over whole words, `k` of them left, and the word after them. -/
def findWords (addr : Bitmap L) (size : ℕ) : ℕ → ℕ → ℕ → ℕ
  | 0, p, result => if size = 0 then result else foundFirst (addr p) result size
  | k + 1, p, result =>
    if addr p ≠ 0 then result + ffs (addr p) else findWords addr size k (p + 1) (result + L.bits)

def findFirstBit (addr : Bitmap L) (size : ℕ) : ℕ :=
  findWords addr (size % L.bits) (size / L.bits) 0 0

def findNextBit (addr : Bitmap L) (size offset : ℕ) : ℕ :=
  let p := offset / L.bits
  let result := offset / L.bits * L.bits
  if size ≤ offset then size
  else
    let size := size - result
    let offset := offset % L.bits
    if offset ≠ 0 then
      let tmp := addr p &&& (BitVec.allOnes L.bits <<< offset)
      if size < L.bits then foundFirst tmp result size
      else if tmp ≠ 0 then result + ffs tmp
      else
        let size := size - L.bits
        findWords addr (size % L.bits) (size / L.bits) (p + 1) (result + L.bits)
    else findWords addr (size % L.bits) (size / L.bits) p result

/-- What `number` writes for `%d`, of a number that is not negative. -/
def numberDec (num : ℕ) : List UInt8 :=
  if num = 0 then [48] else ((Nat.digits 10 num).map fun d => 48 + UInt8.ofNat d).reverse

/-- `scnprintf` at the end of the text so far. A `buflen` that is negative as an `int` is rejected
by `vsnprintf`, which then writes nothing. -/
def bscnlPut (buflen : ℕ) (out text : List UInt8) : List UInt8 :=
  out ++ if buflen < 2 ^ 31 then scnprintf (buflen - out.length) text else []

def bscnlEmit (buflen rbot rtop : ℕ) (out : List UInt8) : List UInt8 :=
  let out := if 0 < out.length then bscnlPut buflen out [44] else out
  if rbot = rtop then bscnlPut buflen out (numberDec rbot)
  else bscnlPut buflen out (numberDec rbot ++ 45 :: numberDec rtop)

/-- The variables of `bitmap_scnlistprintf`; `out` is what stands in the buffer. -/
structure ListState where
  cur : ℕ
  rbot : ℕ
  out : List UInt8

def listPass (maskp : Bitmap L) (buflen nmaskbits : ℕ) (s : ListState) :
    Pass ListState (List UInt8) :=
  if s.cur < nmaskbits then
    let rtop := s.cur
    let cur := findNextBit maskp nmaskbits (s.cur + 1)
    if nmaskbits ≤ cur ∨ rtop + 1 < cur then .again ⟨cur, cur, bscnlEmit buflen s.rbot rtop s.out⟩
    else .again ⟨cur, s.rbot, s.out⟩
  else .leave s.out

/-- `bitmap_scnlistprintf`: what it leaves before the NUL. -/
def bitmapScnlistprintf (buflen : ℕ) (maskp : Bitmap L) (nmaskbits : ℕ) : Option (List UInt8) :=
  if buflen = 0 then some []
  else
    let cur := findFirstBit maskp nmaskbits
    Pass.run (listPass maskp buflen nmaskbits) (nmaskbits + 1) ⟨cur, cur, []⟩

def charAt (cp : List UInt8) : UInt8 := cp.headD 0

/-- `TOLOWER`. -/
def tolowerBit (c : UInt8) : UInt8 := c ||| 0x20

def simpleGuessBase (cp : List UInt8) : ℕ :=
  if charAt cp = 48 then
    if tolowerBit (charAt (cp.drop 1)) = 120 ∧ isxdigit (charAt (cp.drop 2)) then 16 else 8
  else 10

/-- The loop of `simple_strtoull`: the number and the rest of the string. -/
def strtoullLoop (base : ℕ) : List UInt8 → ℕ → ℕ × List UInt8
  | [], result => (result, [])
  | c :: cp, result =>
    if isxdigit c then
      let value := if isdigit c then (c - 48).toNat else (tolowerBit c - 97).toNat + 10
      if base ≤ value then (result, c :: cp)
      else strtoullLoop base cp ((result * base + value) % 2 ^ 64)
    else (result, c :: cp)

def simpleStrtoull (cp : List UInt8) (base : ℕ) : ℕ × List UInt8 :=
  let base := if base = 0 then simpleGuessBase cp else base
  let cp :=
    if base = 16 ∧ charAt cp = 48 ∧ tolowerBit (charAt (cp.drop 1)) = 120 then cp.drop 2 else cp
  strtoullLoop base cp 0

/-- `simple_strtoul`, whose value is stored in an `unsigned`. -/
def simpleStrtoul (L : LongSize) (cp : List UInt8) (base : ℕ) : ℕ × List UInt8 :=
  let (value, cp) := simpleStrtoull cp base
  (value % 2 ^ L.bits % 2 ^ 32, cp)

def Bitmap.set (b : Bitmap L) (n : ℕ) : Bitmap L :=
  Function.update b (n / L.bits) (b (n / L.bits) ||| BitVec.twoPow L.bits (n % L.bits))

/-- The loop over the bits of a range, `k` of them left. -/
def setRange : ℕ → ℕ → Bitmap L → Bitmap L
  | 0, _, maskp => maskp
  | k + 1, a, maskp => setRange k (a + 1) (maskp.set a)

/-- The end of a range that starts with `a`. -/
def rangeEnd (L : LongSize) (a : ℕ) (bp : List UInt8) : Option (ℕ × List UInt8) :=
  if charAt bp = 45 then
    if isdigit (charAt bp.tail) then some (simpleStrtoul L bp.tail 10) else none
  else some (a, bp)

def parselistPass (nmaskbits : ℕ) (s : List UInt8 × Bitmap L) :
    Pass (List UInt8 × Bitmap L) (ℤ × Bitmap L) :=
  let (bp, maskp) := s
  if ¬ isdigit (charAt bp) then .leave (-EINVAL, maskp)
  else
    let (a, bp) := simpleStrtoul L bp 10
    match rangeEnd L a bp with
    | none => .leave (-EINVAL, maskp)
    | some (b, bp) =>
      if ¬ a ≤ b then .leave (-EINVAL, maskp)
      else if nmaskbits ≤ b then .leave (-ERANGE, maskp)
      else
        let maskp := setRange (b + 1 - a) a maskp
        let bp := if charAt bp = 44 then bp.tail else bp
        if charAt bp ≠ 0 ∧ charAt bp ≠ 10 then .again (bp, maskp) else .leave (0, maskp)

def bitmapParselist (bp : List UInt8) (maskp : Bitmap L) (nmaskbits : ℕ) : Option (ℤ × Bitmap L) :=
  Pass.run (parselistPass nmaskbits) (bp.length + 1) (bp, bitmapZero maskp nmaskbits)

end

end LinuxKernel.Lib
