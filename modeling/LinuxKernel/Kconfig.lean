import Mathlib.Data.Nat.Notation
import Mathlib.Tactic.TypeStar

/-!
# Kconfig expressions

The expressions of `scripts/kconfig/expr.c` that the parser builds, their value, and
`expr_transform`. What `sym_calc_value` has computed is an assignment: a value and a string for each
symbol. The messages for a boolean symbol that is tested for `m` are left out. A function that calls
itself on what it has built takes fuel and is `none` without.
-/

namespace LinuxKernel.Kconfig

inductive Tristate where
  | no | mod | yes
  deriving DecidableEq, Repr

def Tristate.toNat : Tristate → ℕ
  | .no => 0
  | .mod => 1
  | .yes => 2

def Tristate.or (dep1 dep2 : Tristate) : Tristate := if dep1.toNat > dep2.toNat then dep1 else dep2

def Tristate.and (dep1 dep2 : Tristate) : Tristate := if dep1.toNat < dep2.toNat then dep1 else dep2

def Tristate.not : Tristate → Tristate
  | .no => .yes
  | .mod => .mod
  | .yes => .no

inductive SymbolType where
  | unknown | boolean | tristate | int | hex | string | other
  deriving DecidableEq, Repr

/-- `curr` of a symbol. -/
structure SymbolValue where
  val : String
  tri : Tristate

/-- The symbols: their types, which of them have `SYMBOL_CONST`, and the three that stand for a
value. -/
structure SymbolTable (S : Type*) where
  type : S → SymbolType
  const : S → Bool
  yes : S
  mod : S
  no : S
  type_yes : type yes = .unknown
  type_mod : type mod = .unknown
  type_no : type no = .unknown
  yes_ne_mod : yes ≠ mod
  yes_ne_no : yes ≠ no
  mod_ne_no : mod ≠ no

variable {S : Type*}

/-- The values of the symbols. A boolean symbol is not `m`. -/
structure Assignment (T : SymbolTable S) where
  curr : S → SymbolValue
  curr_yes : curr T.yes = ⟨"y", .yes⟩
  curr_mod : curr T.mod = ⟨"m", .mod⟩
  curr_no : curr T.no = ⟨"n", .no⟩
  boolean : ∀ s, T.type s = .boolean → (curr s).tri ≠ .mod

inductive Expr (S : Type*) where
  | symbol (sym : S)
  | not (e : Expr S)
  | and (left right : Expr S)
  | or (left right : Expr S)
  | equal (left right : S)
  | unequal (left right : S)
  deriving DecidableEq

section

variable {T : SymbolTable S}

def symGetStringValue (v : Assignment T) (sym : S) : String :=
  if T.type sym = .boolean ∨ T.type sym = .tristate then
    match (v.curr sym).tri with
    | .no => "n"
    | .mod => "m"
    | .yes => "y"
  else (v.curr sym).val

def exprCalcValue (v : Assignment T) : Expr S → Tristate
  | .symbol sym => (v.curr sym).tri
  | .and left right => (exprCalcValue v left).and (exprCalcValue v right)
  | .or left right => (exprCalcValue v left).or (exprCalcValue v right)
  | .not e => (exprCalcValue v e).not
  | .equal left right =>
    if symGetStringValue v left = symGetStringValue v right then .yes else .no
  | .unequal left right =>
    if symGetStringValue v left = symGetStringValue v right then .no else .yes

end

section

variable [DecidableEq S] (T : SymbolTable S)

def transformEqual (left right : S) : Expr S :=
  if T.type left ≠ .boolean then .equal left right
  else if right = T.no then .not (.symbol left)
  else if right = T.mod then .symbol T.no
  else if right = T.yes then .symbol left
  else .equal left right

def transformUnequal (left right : S) : Expr S :=
  if T.type left ≠ .boolean then .unequal left right
  else if right = T.no then .symbol left
  else if right = T.mod then .symbol T.yes
  else if right = T.yes then .not (.symbol left)
  else .unequal left right

/-- The case `E_NOT` of `expr_transform` with a symbol below. -/
def transformNotSymbol (sym : S) : Expr S :=
  if sym = T.yes then .symbol T.no
  else if sym = T.mod then .symbol T.mod
  else if sym = T.no then .symbol T.yes
  else .not (.symbol sym)

/-- The case `E_NOT` of `expr_transform`, with the operand transformed and the call on the result. -/
def transformNot (transform : Expr S → Option (Expr S)) : Expr S → Option (Expr S)
  | .not tmp => transform tmp
  | .equal left right => some (.unequal left right)
  | .unequal left right => some (.equal left right)
  | .or left right => transform (.and (.not left) (.not right))
  | .and left right => transform (.or (.not left) (.not right))
  | .symbol sym => some (transformNotSymbol T sym)

def exprTransform : ℕ → Expr S → Option (Expr S)
  | 0, _ => none
  | _ + 1, .symbol sym => some (.symbol sym)
  | _ + 1, .equal left right => some (transformEqual T left right)
  | _ + 1, .unequal left right => some (transformUnequal T left right)
  | n + 1, .and left right =>
    (exprTransform n left).bind fun left =>
      (exprTransform n right).bind fun right => some (.and left right)
  | n + 1, .or left right =>
    (exprTransform n left).bind fun left =>
      (exprTransform n right).bind fun right => some (.or left right)
  | n + 1, .not e => (exprTransform n e).bind (transformNot T (exprTransform n))

end

end LinuxKernel.Kconfig
