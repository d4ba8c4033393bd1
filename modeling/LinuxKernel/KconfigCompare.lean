import LinuxKernel.Kconfig

/-!
# Kconfig expressions that are compared

`expr_trans_compare` of `scripts/kconfig/expr.c`. A null pointer is `none`; only the expression the
function is called with can be one.
-/

namespace LinuxKernel.Kconfig

variable {S : Type*}

/-- `expr_calc_value`, of a null pointer too. -/
def exprValue {T : SymbolTable S} (v : Assignment T) : Option (Expr S) → Tristate
  | none => .yes
  | some e => exprCalcValue v e

section

/-- The types `E_EQUAL` and `E_UNEQUAL`. -/
inductive CompareType where
  | equal | unequal
  deriving DecidableEq

def CompareType.flip : CompareType → CompareType
  | .equal => .unequal
  | .unequal => .equal

def CompareType.comp (left right : S) : CompareType → Expr S
  | .equal => .equal left right
  | .unequal => .unequal left right

def CompareType.wrap (e : Expr S) : CompareType → Expr S
  | .equal => e
  | .unequal => .not e

variable [DecidableEq S] (T : SymbolTable S) (sym : S)

/-- The cases `E_EQUAL` and `E_UNEQUAL` of `expr_trans_compare`. -/
def transCompareTest (type : CompareType) (e : Expr S) : Option (Expr S) :=
  if sym = T.yes then some (type.wrap e)
  else if sym = T.mod then
    match type with
    | .equal => some (.symbol T.no)
    | .unequal => some (.symbol T.yes)
  else if sym = T.no then some (type.flip.wrap e)
  else none

/-- `expr_trans_compare` of an expression. A comparison with a symbol that is neither `y` nor `n`
leaves a conjunction or disjunction as it is. -/
def transCompare (type : CompareType) : Expr S → Option (Expr S)
  | .and left right =>
    if sym = T.yes then
      (transCompare .equal left).bind fun e1 =>
        (transCompare .equal right).map fun e2 => type.wrap (.and e1 e2)
    else if sym = T.no then
      (transCompare .equal left).bind fun e1 =>
        (transCompare .equal right).map fun e2 => type.wrap (.or e1 e2)
    else some (type.wrap (.and left right))
  | .or left right =>
    if sym = T.yes then
      (transCompare .equal left).bind fun e1 =>
        (transCompare .equal right).map fun e2 => type.wrap (.or e1 e2)
    else if sym = T.no then
      (transCompare .equal left).bind fun e1 =>
        (transCompare .equal right).map fun e2 => type.wrap (.and e1 e2)
    else some (type.wrap (.or left right))
  | .not e => transCompare type.flip e
  | .unequal left right => transCompareTest T sym type (.unequal left right)
  | .equal left right => transCompareTest T sym type (.equal left right)
  | .symbol s => some (type.comp s sym)

def exprTransCompare (type : CompareType) : Option (Expr S) → Option (Expr S)
  | none => some (type.wrap (.symbol sym))
  | some e => transCompare T sym type e

end

end LinuxKernel.Kconfig
