import LinuxKernel.Word

/-!
# Character classes and hexadecimal numbers

The parts of `include/linux/ctype.h`, `lib/ctype.c` and `lib/vsprintf.c` that printing and parsing
of bitmaps use. A `char` is a byte.
-/

namespace LinuxKernel.Lib

/-- Bytes with `_D` in `_ctype`. -/
def isdigit (c : UInt8) : Bool := 48 ≤ c && c ≤ 57

/-- Bytes with `_D` or `_X` in `_ctype`. -/
def isxdigit (c : UInt8) : Bool := isdigit c || (65 ≤ c && c ≤ 70) || (97 ≤ c && c ≤ 102)

/-- Bytes with `_S` in `_ctype`. -/
def isspace (c : UInt8) : Bool := (9 ≤ c && c ≤ 13) || c == 32 || c == 160

/-- Bytes with `_L` in `_ctype`. -/
def islower (c : UInt8) : Bool := (97 ≤ c && c ≤ 122) || (223 ≤ c && c != 247)

def toupper (c : UInt8) : UInt8 := if islower c then c - 32 else c

/-- `digits[d] | locase` of `number`, where `locase` is `SMALL`. -/
def lowerDigit (d : ℕ) : UInt8 :=
  ([48, 49, 50, 51, 52, 53, 54, 55, 56, 57, 65, 66, 67, 68, 69, 70] : List UInt8).getD d 0 ||| 0x20

/-- What `number` writes for `%0*lx`: the digits of `num`, padded with zeros to the field width. -/
def numberHex (num fieldWidth : ℕ) : List UInt8 :=
  let tmp := if num = 0 then [48] else (Nat.digits 16 num).map lowerDigit
  List.replicate (fieldWidth - tmp.length) 48 ++ tmp.reverse

/-- What `scnprintf` leaves before the NUL in a buffer of `size` bytes. -/
def scnprintf (size : ℕ) (text : List UInt8) : List UInt8 := text.take (size - 1)

end LinuxKernel.Lib
