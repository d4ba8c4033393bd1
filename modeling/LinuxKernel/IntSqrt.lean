import Mathlib

/-!
# `lib/int_sqrt.c`: the integer square root

A word has `w` bits; the sums wrap.
-/

namespace LinuxKernel.Lib

/-- The variables of `int_sqrt`. -/
structure Sqrt where
  op : ℕ
  res : ℕ
  one : ℕ

/-- `while (one > op) one >>= 2`. -/
def shrinkOne (op one : ℕ) : ℕ :=
  if op < one then shrinkOne op (one / 4) else one
termination_by one

/-- The body of the second loop. -/
def sqrtStep (w : ℕ) (s : Sqrt) : Sqrt :=
  let s' := if (s.res + s.one) % 2 ^ w ≤ s.op then
    ⟨s.op - (s.res + s.one) % 2 ^ w, (s.res + 2 * s.one) % 2 ^ w, s.one⟩ else s
  ⟨s'.op, s'.res / 2, s'.one / 4⟩

def sqrtLoop (w : ℕ) (s : Sqrt) : ℕ :=
  if _h : s.one = 0 then s.res else sqrtLoop w (sqrtStep w s)
termination_by s.one
decreasing_by
  have hone : (sqrtStep w s).one = s.one / 4 := by
    unfold sqrtStep
    split_ifs <;> rfl
  omega

def sqrtStart (w x : ℕ) : Sqrt := ⟨x, 0, shrinkOne x (2 ^ (w - 2))⟩

def intSqrt (w x : ℕ) : ℕ := sqrtLoop w (sqrtStart w x)

/-- The states at the head of the second loop. -/
inductive SqrtReach (w x : ℕ) : Sqrt → Prop
  | start : SqrtReach w x (sqrtStart w x)
  | step {s : Sqrt} : SqrtReach w x s → s.one ≠ 0 → SqrtReach w x (sqrtStep w s)

end LinuxKernel.Lib
