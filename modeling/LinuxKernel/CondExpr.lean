import Mathlib.Data.BitVec
import Mathlib.Data.Nat.Notation

/-!
# Conditional policy expressions

`cond_evaluate_expr` of `security/selinux/ss/conditional.c`. The array `s` starts with whatever the
stack frame holds. An access outside the array is `none`.
-/

namespace LinuxKernel.Selinux

def COND_EXPR_MAXDEPTH : ℕ := 10

abbrev CInt := BitVec 32

/-- `struct cond_bool_datum`; `bool_isvalid` lets no other states in. -/
structure CondBoolDatum where
  state : CInt
  isvalid : state = 0 ∨ state = 1

/-- `COND_OR` to `COND_NEQ`. -/
inductive CondOp where
  | or | and | xor | eq | neq
  deriving DecidableEq

/-- `struct cond_expr`, over `n` booleans: the boolean `bool` is the one of index `bool - 1`. The last
case is an `expr_type` that the switch does not have. -/
inductive CondExpr (n : ℕ) where
  | bool (i : Fin n)
  | not
  | op (o : CondOp)
  | other (exprType : ℕ)
  deriving DecidableEq

/-- The operators on `int`. -/
def CondOp.apply : CondOp → CInt → CInt → CInt
  | .or, a, b => a ||| b
  | .and, a, b => a &&& b
  | .xor, a, b => a ^^^ b
  | .eq, a, b => if a = b then 1 else 0
  | .neq, a, b => if a ≠ b then 1 else 0

/-- The array `s` and `sp`. -/
structure CondStack where
  s : ℕ → CInt
  sp : ℤ

def CondStack.get (st : CondStack) (i : ℤ) : Option CInt :=
  if 0 ≤ i ∧ i < COND_EXPR_MAXDEPTH then some (st.s i.toNat) else none

def CondStack.set (st : CondStack) (i : ℤ) (x : CInt) : Option CondStack :=
  if 0 ≤ i ∧ i < COND_EXPR_MAXDEPTH then
    some { st with s := Function.update st.s i.toNat x }
  else none

variable {n : ℕ} (boolValToStruct : Fin n → CondBoolDatum)

/-- The body of the loop: `.error` is a `return`. -/
def condStep (st : CondStack) : CondExpr n → Option (Except CInt CondStack)
  | .bool i =>
    if st.sp = COND_EXPR_MAXDEPTH - 1 then some (.error (-1))
    else
      let sp := st.sp + 1
      (CondStack.set ⟨st.s, sp⟩ sp (boolValToStruct i).state).map .ok
  | .not =>
    if st.sp < 0 then some (.error (-1))
    else
      (st.get st.sp).bind fun x => (st.set st.sp (if x = 0 then 1 else 0)).map .ok
  | .op o =>
    if st.sp < 1 then some (.error (-1))
    else
      let sp := st.sp - 1
      (st.get sp).bind fun x =>
        (st.get (sp + 1)).bind fun y => (CondStack.set ⟨st.s, sp⟩ sp (o.apply x y)).map .ok
  | .other _ => some (.error (-1))

/-- The loop, from an element on. -/
def condLoop : CondStack → List (CondExpr n) → Option CInt
  | st, [] => st.get 0
  | st, cur :: next =>
    (condStep boolValToStruct st cur).bind fun
      | .error r => some r
      | .ok st => condLoop st next

/-- `cond_evaluate_expr`, with what the array `s` holds at the start. -/
def condEvaluateExpr (s : ℕ → CInt) (expr : List (CondExpr n)) : Option CInt :=
  condLoop boolValToStruct ⟨s, -1⟩ expr

end LinuxKernel.Selinux
