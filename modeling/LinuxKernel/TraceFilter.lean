import LinuxKernel.Text

/-!
# Event filters

`filter_parse`, `replace_preds` and `filter_match_preds` of `kernel/trace/trace_events_filter.c`. A
filter string is the list of its bytes before the NUL. The fields of an event, the values its
comparisons read from the string and the functions that compare them with a record are parameters;
every predicate function returns 0 or 1, so an `int match` is a `Bool`. Allocations succeed.
-/

namespace LinuxKernel.Trace

open LinuxKernel.Lib (isspace)

def MAX_FILTER_PRED : ℕ := 32

def MAX_FILTER_STR_VAL : ℕ := 256

inductive FilterOp
  | or | and | glob | ne | eq | lt | le | gt | ge | none | openParen
  deriving DecidableEq, Repr

def FilterOp.string : FilterOp → List UInt8
  | .or => [124, 124]
  | .and => [38, 38]
  | .glob => [126]
  | .ne => [33, 61]
  | .eq => [61, 61]
  | .lt => [60]
  | .le => [60, 61]
  | .gt => [62]
  | .ge => [62, 61]
  | .none => [79, 80, 95, 78, 79, 78, 69]
  | .openParen => [40]

def FilterOp.precedence : FilterOp → ℕ
  | .or => 1
  | .and => 2
  | .glob | .ne | .eq => 4
  | .lt | .le | .gt | .ge => 5
  | .none | .openParen => 0

/-- The entries of `filter_ops` before `OP_NONE`. -/
def filterOps : List FilterOp := [.or, .and, .glob, .ne, .eq, .lt, .le, .gt, .ge]

inductive FilterErr
  | invalidOp | unbalancedParen | tooManyOperands | operandTooLong | fieldNotFound | illegalFieldOp
  | illegalIntval | tooManyPreds | missingField | invalidFilter
  deriving DecidableEq, Repr

/-- An error of the parser, or a read behind the NUL of the string. -/
inductive Fail
  | err (e : FilterErr)
  | overrun
  deriving DecidableEq, Repr

structure PostfixElt where
  op : FilterOp
  operand : Option (List UInt8)
  deriving DecidableEq

/-- What `filter_parse` changes of `struct filter_parse_state`, the position in the string apart. -/
structure ParseState where
  opstack : List FilterOp
  postfixList : List PostfixElt
  operand : List UInt8

def isPrecedenceLower (a b : FilterOp) : Bool := decide (a.precedence < b.precedence)

def isOpChar (c : UInt8) : Bool := filterOps.any fun op => op.string.head? == some c

/-- The operator and whether the string advances; `rest` is the string after the first byte. -/
def infixGetOp (firstc : UInt8) (rest : List UInt8) : FilterOp × Bool :=
  let nextc := rest.headD 0
  let opstr := if nextc = 0 then [firstc] else [firstc, nextc]
  match filterOps.find? fun op => op.string == opstr with
  | some op => (op, true)
  | none => ((filterOps.find? fun op => op.string == [firstc]).getD .none, false)

def appendOperandChar (ps : ParseState) (c : UInt8) : Option ParseState :=
  if ps.operand.length = MAX_FILTER_STR_VAL - 1 then none
  else some { ps with operand := ps.operand ++ [c] }

def postfixOperand (operand : List UInt8) : PostfixElt := ⟨.none, some operand⟩

def postfixOp (op : FilterOp) : PostfixElt := ⟨op, none⟩

/-- `if (strlen(curr_operand(ps)))`: the operand goes to the postfix list. -/
def flushOperand (ps : ParseState) : ParseState :=
  if ps.operand ≠ [] then
    { ps with postfixList := ps.postfixList ++ [postfixOperand ps.operand], operand := [] }
  else ps

/-- The operators that `op` moves from the stack to the postfix list. -/
def popOps (op : FilterOp) : List FilterOp → List PostfixElt → List FilterOp × List PostfixElt
  | [], pf => ([], pf)
  | top :: st, pf =>
    if !isPrecedenceLower top op then popOps op st (pf ++ [postfixOp top]) else (top :: st, pf)

def pushOp (ps : ParseState) (op : FilterOp) : ParseState :=
  let popped := popOps op ps.opstack ps.postfixList
  { ps with opstack := op :: popped.1, postfixList := popped.2 }

/-- `)`: the operators down to the open parenthesis. -/
def popParen : List FilterOp → List PostfixElt → Option (List FilterOp × List PostfixElt)
  | [], _ => none
  | top :: st, pf =>
    if top = .none then none
    else if top = .openParen then some (st, pf)
    else popParen st (pf ++ [postfixOp top])

/-- The end of the string: the operators that are left. -/
def popRest : List FilterOp → List PostfixElt → Except Fail (List PostfixElt)
  | [], pf => .ok pf
  | top :: st, pf =>
    if top = .none then .ok pf
    else if top = .openParen then .error (.err .unbalancedParen)
    else popRest st (pf ++ [postfixOp top])

def filterParseLoop (inString : Bool) (ps : ParseState) : List UInt8 → Except Fail ParseState
  | [] => .ok ps
  | ch :: rest =>
    if ch = 34 then filterParseLoop (!inString) ps rest
    else if !inString && isspace ch then filterParseLoop inString ps rest
    else if !inString && isOpChar ch then
      let got := infixGetOp ch rest
      if got.1 = .none then .error (.err .invalidOp)
      else
        let ps := pushOp (flushOperand ps) got.1
        if got.2 then
          match rest with
          | [] => .error .overrun
          | _ :: rest => filterParseLoop inString ps rest
        else filterParseLoop inString ps rest
    else if !inString && ch == 40 then
      filterParseLoop inString { ps with opstack := .openParen :: ps.opstack } rest
    else if !inString && ch == 41 then
      let ps := flushOperand ps
      match popParen ps.opstack ps.postfixList with
      | none => .error (.err .unbalancedParen)
      | some popped =>
        filterParseLoop inString { ps with opstack := popped.1, postfixList := popped.2 } rest
    else
      match appendOperandChar ps ch with
      | none => .error (.err .operandTooLong)
      | some ps => filterParseLoop inString ps rest

def filterParse (infixString : List UInt8) : Except Fail (List PostfixElt) :=
  match filterParseLoop false ⟨[], [], []⟩ infixString with
  | .error e => .error e
  | .ok ps =>
    let ps := flushOperand ps
    popRest ps.opstack ps.postfixList

section

inductive FilterType
  | other | staticString | dynString | ptrString
  deriving DecidableEq, Repr

structure EventField where
  filterType : FilterType
  size : ℕ
  isSigned : Bool

/-- What `filter_match_preds` reads of a predicate. -/
structure FilterPred (ρ : Type*) where
  popN : ℕ
  fn : ρ → Bool → Bool → Bool

/-- An event: its fields by name, the two number parsers, and the functions that match a record. -/
structure EventCall (ρ : Type*) where
  findEventField : List UInt8 → Option EventField
  strictStrtoll : List UInt8 → Option (BitVec 64)
  strictStrtoull : List UInt8 → Option (BitVec 64)
  matchString : EventField → FilterOp → List UInt8 → ρ → Bool
  matchNumber : EventField → FilterOp → BitVec 64 → ρ → Bool

variable {ρ : Type*}

def isStringField (field : EventField) : Bool :=
  field.filterType = .dynString || field.filterType = .staticString || field.filterType = .ptrString

def isLegalOp (field : EventField) (op : FilterOp) : Bool :=
  if isStringField field && (op != .eq && op != .ne && op != .glob) then false
  else if !isStringField field && op == .glob then false
  else true

def hasComparisonFn (fieldSize : ℕ) : Bool := [8, 4, 2, 1].contains fieldSize

/-- `filter_add_pred` for a comparison, up to `add_pred_fn`. -/
def comparisonPred (call : EventCall ρ) (op : FilterOp) (fieldName pattern : List UInt8) :
    Except Fail (FilterPred ρ) :=
  match call.findEventField fieldName with
  | none => .error (.err .fieldNotFound)
  | some field =>
    if !isLegalOp field op then .error (.err .illegalFieldOp)
    else if isStringField field then .ok ⟨0, fun rec _ _ => call.matchString field op pattern rec⟩
    else
      match if field.isSigned then call.strictStrtoll pattern else call.strictStrtoull pattern with
      | none => .error (.err .illegalIntval)
      | some val =>
        if !hasComparisonFn field.size then .error (.err .invalidOp)
        else .ok ⟨0, fun rec _ _ => call.matchNumber field op val rec⟩

def filterPredAnd : FilterPred ρ := ⟨2, fun _ val1 val2 => val1 && val2⟩

def filterPredOr : FilterPred ρ := ⟨2, fun _ val1 val2 => val1 || val2⟩

def filterAddPredFn (filter : List (FilterPred ρ)) (pred : FilterPred ρ) :
    Except Fail (List (FilterPred ρ)) :=
  if filter.length = MAX_FILTER_PRED then .error (.err .tooManyPreds) else .ok (filter ++ [pred])

def isLogical (elt : PostfixElt) : Bool := elt.op = .and || elt.op = .or

def isNormal (elt : PostfixElt) : Bool := elt.op ≠ .none && !isLogical elt

def checkPreds (pf : List PostfixElt) : Except Fail Unit :=
  let nLogicalPreds := pf.countP isLogical
  let nNormalPreds := pf.countP isNormal
  if nNormalPreds = 0 ∨ nLogicalPreds ≥ nNormalPreds then .error (.err .invalidFilter) else .ok ()

/-- The predicate that `replace_preds` makes of an operator and its operands. -/
def eltPred (call : EventCall ρ) (op : FilterOp) (operand1 operand2 : Option (List UInt8)) :
    Except Fail (FilterPred ρ) :=
  if op = .and then .ok filterPredAnd
  else if op = .or then .ok filterPredOr
  else
    match operand1, operand2 with
    | some operand1, some operand2 => comparisonPred call op operand1 operand2
    | _, _ => .error (.err .missingField)

def replaceLoop (call : EventCall ρ) (dryRun : Bool) : List PostfixElt → Option (List UInt8) →
    Option (List UInt8) → ℕ → List (FilterPred ρ) → Except Fail (List (FilterPred ρ))
  | [], _, _, _, filter => .ok filter
  | elt :: pf, operand1, operand2, nPreds, filter =>
    if elt.op = .none then
      if operand1.isNone then replaceLoop call dryRun pf elt.operand operand2 nPreds filter
      else if operand2.isNone then replaceLoop call dryRun pf operand1 elt.operand nPreds filter
      else .error (.err .tooManyOperands)
    else if nPreds = MAX_FILTER_PRED then .error (.err .tooManyPreds)
    else
      match eltPred call elt.op operand1 operand2 with
      | .error e => .error e
      | .ok pred =>
        match if dryRun then .ok filter else filterAddPredFn filter pred with
        | .error e => .error e
        | .ok filter => replaceLoop call dryRun pf none none (nPreds + 1) filter

def replacePreds (call : EventCall ρ) (pf : List PostfixElt) (dryRun : Bool) :
    Except Fail (List (FilterPred ρ)) :=
  match checkPreds pf with
  | .error e => .error e
  | .ok () => replaceLoop call dryRun pf none none 0 []

/-- `ftrace_profile_set_filter`, of an event that has no filter yet. -/
def ftraceProfileSetFilter (call : EventCall ρ) (filterString : List UInt8) :
    Except Fail (List (FilterPred ρ)) :=
  match filterParse filterString with
  | .error e => .error e
  | .ok pf => replacePreds call pf false

/-- The loop of `filter_match_preds`; `none` is a read outside the stack. -/
def matchLoop (rec : ρ) : List (FilterPred ρ) → List Bool → Bool → Bool → Option Bool
  | [], stack, _, _ => stack.head?
  | pred :: preds, stack, val1, val2 =>
    if pred.popN = 0 then matchLoop rec preds (pred.fn rec val1 val2 :: stack) val1 val2
    else if pred.popN > stack.length then some false
    else
      match stack with
      | val1 :: val2 :: stack => matchLoop rec preds (pred.fn rec val1 val2 :: stack) val1 val2
      | _ => none

def filterMatchPreds (filter : List (FilterPred ρ)) (rec : ρ) : Option Bool :=
  matchLoop rec filter [] false false

end

end LinuxKernel.Trace
