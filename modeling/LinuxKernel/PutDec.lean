import LinuxKernel.Div64

/-!
# Decimal digits of `lib/vsprintf.c`

`put_dec` and its helpers: the bytes that are written to the buffer. No `unsigned` wraps here.
-/

namespace LinuxKernel.Lib

/-- `d + '0'`. -/
def putDigit (d : ℕ) : UInt8 := 48 + UInt8.ofNat d

def putDecTrunc (q : ℕ) : List UInt8 :=
  let d1 := (q >>> 4) &&& 0xf
  let d2 := (q >>> 8) &&& 0xf
  let d3 := q >>> 12
  let d0 := 6 * (d3 + d2 + d1) + (q &&& 0xf)
  let q := (d0 * 0xcd) >>> 11
  let d0 := d0 - 10 * q
  let d1 := q + 9 * d3 + 5 * d2 + d1
  putDigit d0 ::
    if d1 ≠ 0 then
      let q := (d1 * 0xcd) >>> 11
      let d1 := d1 - 10 * q
      let d2 := q + 2 * d2
      putDigit d1 ::
        if d2 ≠ 0 ∨ d3 ≠ 0 then
          let q := (d2 * 0xd) >>> 7
          let d2 := d2 - 10 * q
          let d3 := q + 4 * d3
          putDigit d2 ::
            if d3 ≠ 0 then
              let q := (d3 * 0xcd) >>> 11
              let d3 := d3 - 10 * q
              putDigit d3 :: if q ≠ 0 then [putDigit q] else []
            else []
        else []
    else []

def putDecFull (q : ℕ) : List UInt8 :=
  let d1 := (q >>> 4) &&& 0xf
  let d2 := (q >>> 8) &&& 0xf
  let d3 := q >>> 12
  let d0 := 6 * (d3 + d2 + d1) + (q &&& 0xf)
  let q := (d0 * 0xcd) >>> 11
  let d0 := d0 - 10 * q
  let d1 := q + 9 * d3 + 5 * d2 + d1
  let q := (d1 * 0xcd) >>> 11
  let d1 := d1 - 10 * q
  let d2 := q + 2 * d2
  let q := (d2 * 0xd) >>> 7
  let d2 := d2 - 10 * q
  let d3 := q + 4 * d3
  let q := (d3 * 0xcd) >>> 11
  let d3 := d3 - 10 * q
  [putDigit d0, putDigit d1, putDigit d2, putDigit d3, putDigit q]

/-- `put_dec`, with at most `fuel` passes. -/
def putDec (L : LongSize) : ℕ → ℕ → Option (List UInt8)
  | 0, _ => none
  | fuel + 1, num =>
    if num < 100000 then some (putDecTrunc num)
    else (doDiv L num 100000).bind fun r => (putDec L fuel r.1).map (putDecFull r.2 ++ ·)

end LinuxKernel.Lib
