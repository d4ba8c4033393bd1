import LinuxKernel.Loop
import LinuxKernel.Word

/-!
# Division of 64-bit numbers

`lib/div64.c`, `include/linux/math64.h` and `include/asm-generic/div64.h`, with the reciprocals of
`lib/reciprocal_div.c`.
-/

namespace LinuxKernel.Lib

/-- A pass of the first loop of `__div64_32`, over `b` and `d`. -/
def div64Double (rem : ℕ) (s : ℕ × ℕ) : Pass (ℕ × ℕ) (ℕ × ℕ) :=
  -- the sign test of `b` as an `int64_t`
  if (0 < s.1 ∧ s.1 < 2 ^ 63) ∧ s.1 < rem then .again (addMod 64 s.1 s.1, addMod 64 s.2 s.2)
  else .leave s

structure Div64 where
  rem : ℕ
  res : ℕ
  b : ℕ
  d : ℕ

/-- A pass of the second loop. -/
def div64Subtract (s : Div64) : Pass Div64 Div64 :=
  let s := if s.b ≤ s.rem then
      { s with rem := subMod 64 s.rem s.b, res := addMod 64 s.res s.d } else s
  let s := { s with b := s.b >>> 1, d := s.d >>> 1 }
  if s.d ≠ 0 then .again s else .leave s

/-- `__div64_32`: what is stored in `n` and what is returned. -/
def div64_32 (n base : ℕ) : Option (ℕ × ℕ) :=
  let high := n >>> 32
  let r := if base ≤ high then
      ((high / base) <<< 32 % 2 ^ 64, subMod 64 n ((high / base * base % 2 ^ 32) <<< 32 % 2 ^ 64))
    else (0, n)
  (Pass.run (div64Double r.2) 65 (base, 1)).bind fun s =>
    (Pass.run div64Subtract 65 ⟨r.2, r.1, s.1, s.2⟩).map fun s => (s.res, s.rem % 2 ^ 32)

/-- `do_div`: the quotient and the remainder. -/
def doDiv : LongSize → ℕ → ℕ → Option (ℕ × ℕ)
  | .long64, n, base => some (n / base, n % base)
  | .long32, n, base =>
    if n >>> 32 = 0 then some (n % 2 ^ 32 / base, n % 2 ^ 32 % base) else div64_32 n base

def divU64 (dividend divisor : ℕ) : Option ℕ := (doDiv .long32 dividend divisor).map Prod.fst

/-- `fls`: the number of the last bit that is set, from 1 on, or 0. -/
def fls32 (x : ℕ) : ℕ := x.size

def div64U64 (dividend divisor : ℕ) : Option ℕ :=
  let high := divisor >>> 32
  if high ≠ 0 then
    let shift := fls32 high
    divU64 (dividend >>> shift) ((divisor >>> shift) % 2 ^ 32)
  else divU64 dividend (divisor % 2 ^ 32)

def reciprocalValue (L : LongSize) (k : ℕ) : Option ℕ :=
  (doDiv L (2 ^ 32 + subMod 32 k 1) k).map fun r => r.1 % 2 ^ 32

def reciprocalDivide (A R : ℕ) : ℕ := (A * R) >>> 32 % 2 ^ 32

end LinuxKernel.Lib
