import LinuxKernel.Loop
import LinuxKernel.Word

/-!
# Rational approximation

`rational_best_approximation` of `lib/rational.c`, which takes the last convergent of a continued
fraction that is within the limits.
-/

namespace LinuxKernel.Lib

/-- The variables of the loop. -/
structure Approx where
  n : ℕ
  d : ℕ
  n0 : ℕ
  d0 : ℕ
  n1 : ℕ
  d1 : ℕ

/-- A pass of the loop, with `unsigned long` of `w` bits. -/
def approxPass (w maxNumerator maxDenominator : ℕ) (s : Approx) : Pass Approx (ℕ × ℕ) :=
  if maxNumerator < s.n1 ∨ maxDenominator < s.d1 then .leave (s.n0, s.d0)
  else if s.d = 0 then .leave (s.n1, s.d1)
  else
    let a := s.n / s.d
    .again ⟨s.d, s.n % s.d, s.n1, s.d1, addMod w s.n0 (a * s.n1 % 2 ^ w),
      addMod w s.d0 (a * s.d1 % 2 ^ w)⟩

/-- `rational_best_approximation`, with at most `fuel` passes: the numerator and the denominator. -/
def rationalBestApproximation (L : LongSize) (fuel givenNumerator givenDenominator maxNumerator
    maxDenominator : ℕ) : Option (ℕ × ℕ) :=
  Pass.run (approxPass L.bits maxNumerator maxDenominator) fuel
    ⟨givenNumerator, givenDenominator, 0, 1, 1, 0⟩

end LinuxKernel.Lib
