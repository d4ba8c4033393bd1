import LinuxKernel.TraceFilter

/-!
# Event filters evaluate their expression

The tree of an expression is a disjunction of conjunctions of comparisons and parentheses. Between
two factors the operator stack holds at most one `&&` above at most one `||`, above the last open
parenthesis; the postfix list leaves both so far on the stack of values.
-/

namespace LinuxKernel.Trace

open List
open LinuxKernel.Lib (isspace)

variable {ρ : Type*} {op : FilterOp} {x : ρ → Bool} {n : ℕ} {ps : ParseState}

inductive Expr
  | pred (field : List UInt8) (op : FilterOp) (value : List UInt8)
  | and (l r : Expr)
  | or (l r : Expr)
  | paren (e : Expr)
  deriving DecidableEq

def compOps : List FilterOp := [.glob, .ne, .eq, .lt, .le, .gt, .ge]

/-- The strings of the grammar. -/
inductive Renders : Expr → List UInt8 → Prop
  | pred {field value w₀ w₁ w₂ w₃ : List UInt8} {op : FilterOp} :
      (∀ c ∈ w₀ ++ w₁ ++ w₂ ++ w₃, isspace c = true) →
      Renders (.pred field op value) (w₀ ++ (field ++ (w₁ ++ (op.string ++ (w₂ ++ (value ++ w₃))))))
  | and {l r : Expr} {s t : List UInt8} : Renders l s → Renders r t →
      Renders (.and l r) (s ++ (FilterOp.and.string ++ t))
  | or {l r : Expr} {s t : List UInt8} : Renders l s → Renders r t →
      Renders (.or l r) (s ++ (FilterOp.or.string ++ t))
  | paren {e : Expr} {s w₀ w₁ : List UInt8} : (∀ c ∈ w₀ ++ w₁, isspace c = true) → Renders e s →
      Renders (.paren e) (w₀ ++ (40 :: (s ++ (41 :: w₁))))

def PlainChar (c : UInt8) : Prop := c ≠ 0 ∧ isOpChar c = false ∧ c ≠ 40 ∧ c ≠ 41 ∧ isspace c = false

instance : DecidablePred PlainChar := fun c => by unfold PlainChar; infer_instance

/-- An operand: not empty, short enough, of plain characters that meet `ok`. -/
def OperandOk (ok : UInt8 → Prop) (s : List UInt8) : Prop :=
  s ≠ [] ∧ s.length < MAX_FILTER_STR_VAL ∧ ∀ c ∈ s, PlainChar c ∧ ok c

lemma Renders.plain {field value : List UInt8} {op : FilterOp} :
    Renders (.pred field op value) (field ++ (op.string ++ value)) := by
  have h : ∀ c ∈ [] ++ [] ++ [] ++ ([] : List UInt8), isspace c = true := by simp
  simpa only [nil_append, append_nil] using Renders.pred h

/-- The operands are operands, and the fields, operators and values are legal for the event. -/
def Expr.Legal (ok : UInt8 → Prop) (call : EventCall ρ) : Expr → Prop
  | .pred field op value => OperandOk ok field ∧ OperandOk ok value ∧ op ∈ compOps
      ∧ ∃ pred, comparisonPred call op field value = .ok pred
  | .and l r | .or l r => l.Legal ok call ∧ r.Legal ok call
  | .paren e => e.Legal ok call

def Expr.size : Expr → ℕ
  | .pred _ _ _ => 1
  | .and l r | .or l r => l.size + 1 + r.size
  | .paren e => e.size

def predResult (call : EventCall ρ) (field : List UInt8) (op : FilterOp) (value : List UInt8)
    (rec : ρ) : Bool :=
  match comparisonPred call op field value with
  | .ok pred => pred.fn rec false false
  | .error _ => false

/-- Two readings side by side with `&&` between them: the last group goes on with the first. -/
def glue : List (List Bool) → List (List Bool) → List (List Bool)
  | [], hs => hs
  | [g], hs => (g ++ hs.headD []) :: hs.tail
  | g :: g' :: gs, hs => g :: glue (g' :: gs) hs

/-- The usual reading: the groups that `||` separates, each with the values that `&&` separates. -/
def Expr.groups (call : EventCall ρ) (rec : ρ) : Expr → List (List Bool)
  | .pred field op value => [[predResult call field op value rec]]
  | .and l r => glue (l.groups call rec) (r.groups call rec)
  | .or l r => l.groups call rec ++ r.groups call rec
  | .paren e => [[(e.groups call rec).any fun g => g.all id]]

def Expr.value (call : EventCall ρ) (rec : ρ) (e : Expr) : Bool :=
  (e.groups call rec).any fun g => g.all id

section

def accum (c : Bool × Bool) : List (List Bool) → Bool × Bool
  | [] => c
  | [g] => (c.1, c.2 && g.all id)
  | g :: gs => accum (c.1 || (c.2 && g.all id), true) gs

variable {gs hs : List (List Bool)}

lemma accum_cons (hgs : gs ≠ []) (c : Bool × Bool) (g : List Bool) :
    accum c (g :: gs) = accum (c.1 || (c.2 && g.all id), true) gs := by
  cases gs with
  | nil => exact absurd rfl hgs
  | cons h hs => rfl

lemma accum_append (hhs : hs ≠ []) : ∀ {gs : List (List Bool)}, gs ≠ [] →
    ∀ c, accum c (gs ++ hs) = accum ((accum c gs).1 || (accum c gs).2, true) hs
  | [g], _, c => by rw [singleton_append, accum_cons hhs, accum]
  | g :: g' :: gs, _, c => by
    rw [cons_append, accum_cons (by simp), accum_cons (by simp), accum_append hhs (by simp)]

lemma glue_ne_nil (hgs : gs ≠ []) : glue gs hs ≠ [] := by
  cases gs with
  | nil => exact absurd rfl hgs
  | cons g gs => cases gs <;> simp [glue]

lemma accum_glue : ∀ {gs hs : List (List Bool)}, gs ≠ [] → hs ≠ [] →
    ∀ c, accum c (glue gs hs) = accum (accum c gs) hs
  | [g], [h], _, _, c => by simp [glue, accum, all_append, Bool.and_assoc]
  | [g], h :: h' :: hs, _, _, c => by
    simp only [glue, headD_cons, tail_cons, accum, all_append, Bool.and_assoc]
  | g :: g' :: gs, hs, _, hhs, c => by
    rw [glue, accum_cons (glue_ne_nil (by simp)), accum_cons (by simp), accum_glue (by simp) hhs]

lemma accum_any : ∀ {gs : List (List Bool)}, gs ≠ [] → ∀ b : Bool,
    ((accum (b, true) gs).1 || (accum (b, true) gs).2) = (b || gs.any fun g => g.all id)
  | [g], _, b => by simp [accum]
  | g :: g' :: gs, _, b => by
    rw [accum_cons (by simp), accum_any (by simp), Bool.true_and, Bool.or_assoc]
    rfl

variable {call : EventCall ρ}

lemma groups_ne_nil (rec : ρ) : ∀ e : Expr, e.groups call rec ≠ []
  | .pred _ _ _ => by simp [Expr.groups]
  | .and l r => glue_ne_nil (groups_ne_nil rec l)
  | .or l r => by simp [Expr.groups, groups_ne_nil rec l]
  | .paren _ => by simp [Expr.groups]

/-- The disjunction and the conjunction that the operator stack still has to close. -/
structure Ctx (ρ : Type*) where
  or : Option (ρ → Bool)
  and : Option (ρ → Bool)

def Ctx.andVal (c : Ctx ρ) (x : ρ → Bool) : ρ → Bool :=
  match c.and with
  | some a => fun rec => x rec && a rec
  | none => x

def Ctx.finVal (c : Ctx ρ) (x : ρ → Bool) : ρ → Bool :=
  match c.or with
  | some o => fun rec => c.andVal x rec || o rec
  | none => c.andVal x

def Ctx.read (c : Ctx ρ) (rec : ρ) : Bool × Bool :=
  (c.or.elim false fun o => o rec, c.and.elim true fun a => a rec)

lemma Ctx.andVal_eq (c : Ctx ρ) (x : ρ → Bool) (rec : ρ) :
    c.andVal x rec = ((c.read rec).2 && x rec) := by
  cases hc : c.and with
  | none => simp [andVal, read, hc]
  | some a => simp [andVal, read, hc, Bool.and_comm]

lemma Ctx.finVal_eq (c : Ctx ρ) (x : ρ → Bool) (rec : ρ) :
    c.finVal x rec = ((c.read rec).1 || c.andVal x rec) := by
  cases hc : c.or with
  | none => simp [finVal, read, hc]
  | some o => simp [finVal, read, hc, Bool.or_comm]

variable (call) in
/-- What a parser that has read the expression in a context has to close, and the last value. -/
def run : Expr → Ctx ρ → Ctx ρ × (ρ → Bool)
  | .pred field op value, c => (c, predResult call field op value)
  | .and l r, c => run r ⟨(run l c).1.or, some ((run l c).1.andVal (run l c).2)⟩
  | .or l r, c => run r ⟨some ((run l c).1.finVal (run l c).2), none⟩
  | .paren e, c => (c, (run e ⟨none, none⟩).1.finVal (run e ⟨none, none⟩).2)

lemma finVal_of_read {e : Expr} {s : Ctx ρ × (ρ → Bool)} {rec : ρ}
    (h : ((s.1.read rec).1, s.1.andVal s.2 rec) = accum (false, true) (e.groups call rec)) :
    s.1.finVal s.2 rec = e.value call rec := by
  obtain ⟨h1, h2⟩ := Prod.ext_iff.1 h
  rw [Ctx.finVal_eq]
  simp only at h1 h2
  rw [h1, h2, accum_any (groups_ne_nil rec e), Bool.false_or, Expr.value]

lemma run_read (rec : ρ) : ∀ (e : Expr) (c : Ctx ρ),
    (((run call e c).1.read rec).1, (run call e c).1.andVal (run call e c).2 rec) =
      accum (c.read rec) (e.groups call rec)
  | .pred _ _ _, c => by simp [run, Expr.groups, accum, Ctx.andVal_eq]
  | .and l r, c => by
    rw [run, run_read rec r, Expr.groups, accum_glue (groups_ne_nil rec l) (groups_ne_nil rec r),
      ← run_read rec l]
    rfl
  | .or l r, c => by
    rw [run, run_read rec r, Expr.groups, accum_append (groups_ne_nil rec r) (groups_ne_nil rec l),
      ← run_read rec l, ← Ctx.finVal_eq]
    rfl
  | .paren e, c => by
    have h := finVal_of_read (run_read rec e ⟨none, none⟩)
    simp only [run, Expr.groups, accum, Ctx.andVal_eq, h]
    simp [Expr.value]

lemma run_value (e : Expr) (rec : ρ) :
    (run call e ⟨none, none⟩).1.finVal (run call e ⟨none, none⟩).2 rec = e.value call rec :=
  finVal_of_read (run_read rec e ⟨none, none⟩)

end

section

inductive Item
  | cmp (field : List UInt8) (op : FilterOp) (value : List UInt8)
  | logic (op : FilterOp)

def Item.elts : Item → List PostfixElt
  | .cmp field op value => [postfixOperand field, postfixOperand value, postfixOp op]
  | .logic op => [postfixOp op]

def encode (items : List Item) : List PostfixElt := items.flatMap Item.elts

variable {call : EventCall ρ}

variable (call) in
def ItemOk : Item → Prop
  | .cmp field op value => op ∈ compOps ∧ ∃ pred, comparisonPred call op field value = .ok pred
  | .logic op => op = .and ∨ op = .or

def applyOp (op : FilterOp) (val1 val2 : Bool) : Bool :=
  if op = .and then val1 && val2 else val1 || val2

variable (call) in
def evalItems (rec : ρ) : List Item → List Bool → Option (List Bool)
  | [], st => some st
  | .cmp field op value :: items, st =>
    evalItems rec items (predResult call field op value rec :: st)
  | .logic op :: items, val1 :: val2 :: st => evalItems rec items (applyOp op val1 val2 :: st)
  | .logic _ :: _, _ => none

lemma evalItems_append (rec : ρ) (items' : List Item) : ∀ (items : List Item) (st : List Bool),
    evalItems call rec (items ++ items') st
    = (evalItems call rec items st).bind (evalItems call rec items')
  | [], _ => rfl
  | .cmp _ _ _ :: items, _ => evalItems_append rec items' items _
  | .logic _ :: _, [] => rfl
  | .logic _ :: _, [_] => rfl
  | .logic _ :: items, _ :: _ :: _ => evalItems_append rec items' items _

lemma encode_append (items items' : List Item) :
    encode (items ++ items') = encode items ++ encode items' := flatMap_append

lemma compOps_ne (h : op ∈ compOps) :
    op ≠ .none ∧ op ≠ .openParen ∧ op ≠ .and ∧ op ≠ .or := by
  revert op
  decide

variable (call) in
/-- The items leave the values on the stack. -/
structure Coded (vs : List (ρ → Bool)) (items : List Item) : Prop where
  eval : ∀ rec, evalItems call rec items [] = some (vs.map fun v => v rec)
  ok : ∀ i ∈ items, ItemOk call i
  count : (encode items).countP isNormal = (encode items).countP isLogical + vs.length

variable {vs : List (ρ → Bool)} {items : List Item}

lemma Coded.cmp (h : Coded call vs items) {field value : List UInt8}
    (hok : ItemOk call (.cmp field op value)) :
    Coded call (predResult call field op value :: vs) (items ++ [.cmp field op value]) where
  eval rec := by
    rw [evalItems_append, h.eval, Option.bind_some]
    rfl
  ok := by
    intro i hi
    rcases mem_append.1 hi with hi | hi
    · exact h.ok i hi
    · rw [mem_singleton.1 hi]
      exact hok
  count := by
    obtain ⟨hnone, -, hand, hor⟩ := compOps_ne hok.1
    have hnormal : (encode [.cmp field op value]).countP isNormal = 1 := by
      simp [encode, Item.elts, isNormal, isLogical, postfixOperand, postfixOp, hnone, hand, hor]
    have hlogical : (encode [.cmp field op value]).countP isLogical = 0 := by
      simp [encode, Item.elts, isLogical, postfixOperand, postfixOp, hand, hor]
    have hcount := h.count
    rw [encode_append, countP_append, countP_append, hnormal, hlogical, length_cons]
    omega

lemma Coded.logic {x y : ρ → Bool} (h : Coded call (x :: y :: vs) items)
    (hop : op = .and ∨ op = .or) :
    Coded call ((fun rec => applyOp op (x rec) (y rec)) :: vs) (items ++ [.logic op]) where
  eval rec := by
    rw [evalItems_append, h.eval, Option.bind_some]
    rfl
  ok := by
    intro i hi
    rcases mem_append.1 hi with hi | hi
    · exact h.ok i hi
    · rw [mem_singleton.1 hi]
      exact hop
  count := by
    have hcounts : (encode [.logic op]).countP isNormal = 0
        ∧ (encode [.logic op]).countP isLogical = 1 := by rcases hop with rfl | rfl <;> decide
    have hcount := h.count
    rw [length_cons, length_cons] at hcount
    rw [encode_append, countP_append, countP_append, hcounts.1, hcounts.2,
      length_cons]
    omega

def Ctx.andOps (c : Ctx ρ) : List FilterOp := if c.and.isSome then [.and] else []

def Ctx.orOps (c : Ctx ρ) : List FilterOp := if c.or.isSome then [.or] else []

def Ctx.ops (c : Ctx ρ) : List FilterOp := c.andOps ++ c.orOps

def Ctx.vals (c : Ctx ρ) : List (ρ → Bool) := c.and.toList ++ c.or.toList

variable {c : Ctx ρ}

lemma Ctx.mem_ops (h : op ∈ c.ops) : op = .and ∨ op = .or := by
  unfold ops andOps orOps at h
  split_ifs at h <;> simp_all

lemma Coded.andVal (h : Coded call (x :: (c.vals ++ vs)) items) :
    Coded call (c.andVal x :: (c.or.toList ++ vs)) (items ++ c.andOps.map .logic) := by
  cases hc : c.and with
  | none => simpa [Ctx.andVal, Ctx.andOps, Ctx.vals, hc] using h
  | some a =>
    simp only [Ctx.vals, hc, Option.toList_some, cons_append] at h
    simpa [Ctx.andVal, Ctx.andOps, hc, applyOp] using h.logic (.inl rfl)

lemma Coded.finVal (h : Coded call (x :: (c.vals ++ vs)) items) :
    Coded call (c.finVal x :: vs) (items ++ c.ops.map .logic) := by
  have h' := h.andVal
  rw [Ctx.ops, map_append, ← append_assoc]
  cases hc : c.or with
  | none => simpa [Ctx.finVal, Ctx.orOps, hc] using h'
  | some o =>
    simp only [hc, Option.toList_some, singleton_append] at h'
    simpa [Ctx.finVal, Ctx.orOps, hc, applyOp] using h'.logic (.inr rfl)

lemma encode_logic (ops : List FilterOp) : encode (ops.map .logic) = ops.map postfixOp := by
  induction ops with
  | nil => rfl
  | cons op ops ih =>
    rw [map_cons, map_cons, ← ih]
    rfl

end

section

variable {st : List FilterOp}

lemma popOps_append :
    ∀ {pre : List FilterOp} (pf : List PostfixElt), (∀ top ∈ pre, op.precedence ≤ top.precedence) →
    popOps op (pre ++ st) pf = popOps op st (pf ++ pre.map postfixOp)
  | [], pf, _ => by rw [map_nil, append_nil, nil_append]
  | top :: pre, pf, h => by
    have hlow : isPrecedenceLower top op = false :=
      decide_eq_false (not_lt.2 (h top mem_cons_self))
    rw [cons_append, popOps, hlow, if_pos (by rfl),
      popOps_append _ fun t ht => h t (mem_cons_of_mem _ ht), append_assoc]
    rfl

lemma popOps_stop : ∀ {st : List FilterOp} (pf : List PostfixElt),
    (∀ top ∈ st.head?, top.precedence < op.precedence) → popOps op st pf = (st, pf)
  | [], _, _ => rfl
  | top :: st, pf, h => by
    have hlow : isPrecedenceLower top op = true := decide_eq_true (h top rfl)
    rw [popOps, hlow, if_neg (by decide)]

lemma popParen_append : ∀ {pre : List FilterOp} (pf : List PostfixElt),
    (∀ top ∈ pre, top ≠ .none ∧ top ≠ .openParen) →
    popParen (pre ++ st) pf = popParen st (pf ++ pre.map postfixOp)
  | [], pf, _ => by rw [map_nil, append_nil, nil_append]
  | top :: pre, pf, h => by
    obtain ⟨h1, h2⟩ := h top mem_cons_self
    rw [cons_append, popParen, if_neg h1, if_neg h2,
      popParen_append _ fun t ht => h t (mem_cons_of_mem _ ht), append_assoc]
    rfl

lemma popRest_ops : ∀ {pre : List FilterOp} (pf : List PostfixElt),
    (∀ top ∈ pre, top ≠ .none ∧ top ≠ .openParen) → popRest pre pf = .ok (pf ++ pre.map postfixOp)
  | [], pf, _ => by rw [map_nil, append_nil, popRest]
  | top :: pre, pf, h => by
    obtain ⟨h1, h2⟩ := h top mem_cons_self
    rw [popRest, if_neg h1, if_neg h2, popRest_ops _ fun t ht => h t (mem_cons_of_mem _ ht),
      append_assoc]
    rfl

lemma flushOperand_operand (ps : ParseState) : (flushOperand ps).operand = [] := by
  unfold flushOperand
  split_ifs with h
  · rfl
  · simpa using h

lemma flushOperand_opstack (ps : ParseState) : (flushOperand ps).opstack = ps.opstack := by
  unfold flushOperand
  split_ifs <;> rfl

lemma compOps_precedence (h : op ∈ compOps) : 4 ≤ op.precedence := by
  revert op
  decide

variable (call : EventCall ρ) (base : List FilterOp) (vs : List (ρ → Bool))

/-- The parser stands before a factor. -/
structure Ready (c : Ctx ρ) (n : ℕ) (ps : ParseState) : Prop where
  operand : ps.operand = []
  opstack : ps.opstack = c.ops ++ base
  coded : ∃ items, ps.postfixList = encode items ∧ Coded call (c.vals ++ vs) items
    ∧ items.length + c.ops.length = n

/-- The parser stands after a factor, whose comparison may still have to be closed. -/
def After (c : Ctx ρ) (x : ρ → Bool) (n : ℕ) (ps : ParseState) : Prop :=
  ∃ pre items, ps.opstack = pre ++ (c.ops ++ base) ∧ (∀ op ∈ pre, op ∈ compOps)
    ∧ (flushOperand ps).postfixList ++ pre.map postfixOp = encode items
    ∧ Coded call (x :: (c.vals ++ vs)) items ∧ items.length + c.ops.length = n

variable {call base vs} {c : Ctx ρ}

lemma pushOp_flush {pre : List FilterOp} (hst : ps.opstack = pre ++ st)
    (hpre : ∀ top ∈ pre, op.precedence ≤ top.precedence)
    (hstop : ∀ top ∈ st.head?, top.precedence < op.precedence) :
    pushOp (flushOperand ps) op
      = ⟨op :: st, (flushOperand ps).postfixList ++ pre.map postfixOp, []⟩ := by
  rw [pushOp, flushOperand_opstack, hst, popOps_append _ hpre, popOps_stop _ hstop,
    flushOperand_operand]

lemma After.and (h : After call base vs c x n ps) (hbase : ∀ top ∈ base.head?, top = .openParen) :
    Ready call base vs ⟨c.or, some (c.andVal x)⟩ (n + 1) (pushOp (flushOperand ps) .and) := by
  obtain ⟨pre, items, hst, hpre, hpf, hc, hn⟩ := h
  have hstack : ps.opstack = (pre ++ c.andOps) ++ (c.orOps ++ base) := by
    rw [hst, Ctx.ops]
    simp only [append_assoc]
  rw [pushOp_flush hstack ?_ ?_, map_append, ← append_assoc, hpf]
  · refine ⟨rfl, rfl, items ++ c.andOps.map Item.logic, ?_, hc.andVal, ?_⟩
    · rw [encode_append, encode_logic]
    · simp only [Ctx.ops, length_append, length_map] at hn ⊢
      rw [← hn]
      show items.length + c.andOps.length + (1 + c.orOps.length) = _
      omega
  · intro top htop
    rcases mem_append.1 htop with htop | htop
    · exact le_trans (by decide) (compOps_precedence (hpre top htop))
    · rcases Ctx.mem_ops (mem_append_left c.orOps htop) with rfl | rfl
      · exact le_rfl
      · unfold Ctx.andOps at htop
        split_ifs at htop <;> simp at htop
  · intro top htop
    unfold Ctx.orOps at htop
    split_ifs at htop with hor
    · cases htop
      decide
    · rw [hbase top htop]
      decide

lemma After.or (h : After call base vs c x n ps) (hbase : ∀ top ∈ base.head?, top = .openParen) :
    Ready call base vs ⟨some (c.finVal x), none⟩ (n + 1) (pushOp (flushOperand ps) .or) := by
  obtain ⟨pre, items, hst, hpre, hpf, hc, hn⟩ := h
  have hstack : ps.opstack = (pre ++ c.ops) ++ base := by rw [hst, append_assoc]
  rw [pushOp_flush hstack ?_ ?_, map_append, ← append_assoc, hpf]
  · refine ⟨rfl, rfl, items ++ c.ops.map Item.logic, ?_, hc.finVal, ?_⟩
    · rw [encode_append, encode_logic]
    · rw [length_append, length_map, hn]
      rfl
  · intro top htop
    rcases mem_append.1 htop with htop | htop
    · exact le_trans (by decide) (compOps_precedence (hpre top htop))
    · rcases Ctx.mem_ops htop with rfl | rfl <;> decide
  · intro top htop
    rw [hbase top htop]
    decide

lemma After.closed (h : After call base vs c x n ps) :
    ∃ pre items, ps.opstack = pre ++ base ∧ (∀ op ∈ pre, op ≠ .none ∧ op ≠ .openParen)
      ∧ (flushOperand ps).postfixList ++ pre.map postfixOp = encode items
      ∧ Coded call (c.finVal x :: vs) items ∧ items.length = n := by
  obtain ⟨pre, items, hst, hpre, hpf, hc, hn⟩ := h
  refine ⟨pre ++ c.ops, items ++ c.ops.map .logic,
    by rw [hst, append_assoc], ?_, ?_, hc.finVal, ?_⟩
  · intro op hop
    rcases mem_append.1 hop with hop | hop
    · exact ⟨(compOps_ne (hpre op hop)).1, (compOps_ne (hpre op hop)).2.1⟩
    · rcases Ctx.mem_ops hop with rfl | rfl <;> decide
  · rw [map_append, ← append_assoc, hpf, encode_append, encode_logic]
  · rw [length_append, length_map, hn]

end

section

variable {rest : List UInt8}

lemma loop_space : ∀ {w : List UInt8}, (∀ c ∈ w, isspace c = true) →
    filterParseLoop false ps (w ++ rest) = filterParseLoop false ps rest
  | [], _ => rfl
  | c :: w, h => by
    have hc := h c mem_cons_self
    have hquote : c ≠ 34 := by
      rintro rfl
      revert hc
      decide
    rw [cons_append, filterParseLoop.eq_2, if_neg hquote, if_pos (by rw [hc]; rfl)]
    exact loop_space fun d hd => h d (mem_cons_of_mem _ hd)

lemma loop_operand : ∀ {s : List UInt8} {ps : ParseState}, (∀ c ∈ s, PlainChar c ∧ c ≠ 34) →
    (ps.operand ++ s).length < MAX_FILTER_STR_VAL → filterParseLoop false ps (s ++ rest)
      = filterParseLoop false { ps with operand := ps.operand ++ s } rest
  | [], ps, _, _ => by simp
  | c :: s, ps, h, hlen => by
    obtain ⟨⟨-, hop, hopen, hclose, hspace⟩, hquote⟩ := h c mem_cons_self
    have happend : appendOperandChar ps c = some { ps with operand := ps.operand ++ [c] } := by
      rw [appendOperandChar, if_neg]
      simp only [length_append, length_cons] at hlen
      omega
    rw [cons_append, filterParseLoop.eq_2, if_neg hquote, hspace, hop, if_neg (by decide),
      if_neg (by decide), if_neg (by simpa using hopen), if_neg (by simpa using hclose), happend]
    dsimp only
    rw [loop_operand (fun d hd => h d (mem_cons_of_mem _ hd))
      (by simpa only [append_assoc, singleton_append] using hlen)]
    simp only [append_assoc, singleton_append]

lemma infixGetOp_single {op : FilterOp} {ch c : UInt8} (hop : op ∈ filterOps)
    (hch : op.string = [ch])
    (h61 : c ≠ 61) (h0 : c ≠ 0) : infixGetOp ch (c :: rest) = (op, false) := by
  have h61' : (61 == c) = false := by simpa using Ne.symm h61
  cases op <;> simp [FilterOp.string, filterOps] at hch hop <;> subst hch <;>
    simp [infixGetOp, filterOps, FilterOp.string, h0, List.find?, h61']

lemma loop_op {op : FilterOp} (hop : op ∈ filterOps)
    (hrest : op.string.length = 1 → ∃ c rest', rest = c :: rest' ∧ c ≠ 61 ∧ c ≠ 0) :
    filterParseLoop false ps (op.string ++ rest)
      = filterParseLoop false (pushOp (flushOperand ps) op) rest := by
  by_cases hlen : op.string.length = 1
  · obtain ⟨c, rest', rfl, h61, h0⟩ := hrest hlen
    obtain ⟨ch, hch⟩ := length_eq_one_iff.1 hlen
    have hget : infixGetOp ch (c :: rest') = (op, false) := infixGetOp_single hop hch h61 h0
    have hchar : ch ≠ 34 ∧ isspace ch = false ∧ isOpChar ch = true ∧ op ≠ .none := by
      cases op <;> simp [FilterOp.string, filterOps] at hch hop <;> subst hch <;> decide
    obtain ⟨h34, hspace, hopc, hnone⟩ := hchar
    rw [hch, singleton_append, filterParseLoop.eq_2, if_neg h34, hspace, hopc,
      if_neg (by decide), if_pos (by decide), hget]
    dsimp only
    rw [if_neg hnone, if_neg (by decide)]
  · cases op <;> first | rfl | exact absurd rfl hlen | simp [filterOps] at hop

end

section

variable {call : EventCall ρ} {base : List FilterOp} {vs : List (ρ → Bool)} {c : Ctx ρ}

variable {s : List UInt8} {e : Expr}

lemma compOps_filterOps (h : op ∈ compOps) : op ∈ filterOps := by
  revert op
  decide

lemma operand_head {w : List UInt8} (hw : ∀ c ∈ w, isspace c = true) (hs : s ≠ [])
    (hplain : ∀ c ∈ s, PlainChar c) (rest : List UInt8) :
    ∃ c rest', w ++ (s ++ rest) = c :: rest' ∧ c ≠ 61 ∧ c ≠ 0 := by
  cases w with
  | nil =>
    obtain ⟨c, s', rfl⟩ := exists_cons_of_ne_nil hs
    have ⟨h0, hop, _⟩ := hplain c mem_cons_self
    refine ⟨c, _, rfl, ?_, h0⟩
    rintro rfl
    revert hop
    decide
  | cons c w =>
    have hc := hw c mem_cons_self
    refine ⟨c, _, rfl, ?_, ?_⟩
    · rintro rfl
      revert hc
      decide
    · rintro rfl
      revert hc
      decide

lemma Ready.pred (h : Ready call base vs c n ps) (hbase : ∀ top ∈ base.head?, top = .openParen)
    {field value w₀ w₁ w₂ w₃ : List UInt8}
    (hw : ∀ c ∈ w₀ ++ w₁ ++ w₂ ++ w₃, isspace c = true)
    (hlegal : (Expr.pred field op value).Legal (· ≠ 34) call) (rest : List UInt8) :
    ∃ ps', filterParseLoop false ps
        (w₀ ++ (field ++ (w₁ ++ (op.string ++ (w₂ ++ (value ++ w₃))))) ++ rest)
        = filterParseLoop false ps' rest
      ∧ After call base vs c (predResult call field op value) (n + 1) ps' := by
  obtain ⟨⟨hf0, hflen, hfield⟩, ⟨hv0, hvlen, hvalue⟩, hop, hpred⟩ := hlegal
  simp only [mem_append, or_imp, forall_and] at hw
  obtain ⟨⟨⟨hw₀, hw₁⟩, hw₂⟩, hw₃⟩ := hw
  obtain ⟨hoperand, hst, items, hpf, hc, hn⟩ := h
  have hflush : flushOperand { ps with operand := field } = { ps with
      postfixList := ps.postfixList ++ [postfixOperand field], operand := [] } := by
    rw [flushOperand, if_pos hf0]
  have hstop : popOps op ps.opstack (ps.postfixList ++ [postfixOperand field])
      = (ps.opstack, ps.postfixList ++ [postfixOperand field]) := by
    refine popOps_stop _ fun top htop => lt_of_lt_of_le ?_ (compOps_precedence hop)
    rw [hst] at htop
    cases hops : c.ops with
    | nil =>
      rw [hops, nil_append] at htop
      rw [hbase top htop]
      decide
    | cons o os =>
      rw [hops, cons_append, head?_cons, Option.mem_some_iff] at htop
      subst htop
      rcases Ctx.mem_ops (hops ▸ mem_cons_self) with rfl | rfl <;> decide
  refine ⟨⟨op :: ps.opstack, ps.postfixList ++ [postfixOperand field], value⟩, ?_, [op],
    items ++ [.cmp field op value], ?_, ?_, ?_, hc.cmp ⟨hop, hpred⟩, ?_⟩
  · simp only [append_assoc]
    rw [loop_space hw₀, loop_operand hfield (by rwa [hoperand, nil_append]), loop_space hw₁,
      loop_op (compOps_filterOps hop) fun _ => operand_head hw₂ hv0 (fun c hc => (hvalue c hc).1) _,
      loop_space hw₂, hoperand, nil_append, hflush, pushOp, hstop,
      loop_operand hvalue (by simpa using hvlen), loop_space hw₃]
    rfl
  · rw [hst]
    rfl
  · simpa using hop
  · rw [flushOperand, if_pos hv0, encode_append, hpf]
    simp [encode, Item.elts]
  · rw [length_append, length_singleton, ← hn]
    omega

lemma Ready.openParen (h : Ready call base vs c n ps) :
    ∃ n', n = n' + c.ops.length
    ∧ Ready call (.openParen :: (c.ops ++ base)) (c.vals ++ vs) ⟨none, none⟩ n'
      { ps with opstack := .openParen :: ps.opstack } := by
  obtain ⟨hoperand, hst, items, hpf, hc, hn⟩ := h
  refine ⟨items.length, hn.symm, hoperand, ?_, items, hpf, hc, rfl⟩
  rw [hst]
  rfl

lemma After.closeParen {x : ρ → Bool} {c' : Ctx ρ} {n' : ℕ}
    (h : After call (.openParen :: (c.ops ++ base)) (c.vals ++ vs) c' x n' ps) (rest : List UInt8) :
    ∃ ps', filterParseLoop false ps (41 :: rest) = filterParseLoop false ps' rest
      ∧ After call base vs c (c'.finVal x) (n' + c.ops.length) ps' := by
  obtain ⟨pre, items, hst, hpre, hpf, hc, hn⟩ := h.closed
  have hpop : popParen (flushOperand ps).opstack (flushOperand ps).postfixList
      = some (c.ops ++ base, encode items) := by
    rw [flushOperand_opstack, hst, popParen_append _ hpre, hpf]
    rfl
  refine ⟨⟨c.ops ++ base, encode items, []⟩, ?_, [], items, rfl, by simp, ?_, hc, by rw [hn]⟩
  · rw [filterParseLoop.eq_2, if_neg (by decide), if_neg (by decide), if_neg (by decide),
      if_neg (by decide), if_pos (by decide)]
    dsimp only
    rw [hpop, flushOperand_operand]
  · rw [map_nil, append_nil]
    rfl

lemma Ready.expr (hr : Renders e s) :
    ∀ {base : List FilterOp} {vs : List (ρ → Bool)} {c : Ctx ρ} {n : ℕ} {ps : ParseState},
      Ready call base vs c n ps → (∀ top ∈ base.head?, top = .openParen) → e.Legal (· ≠ 34) call →
      ∀ rest, ∃ ps', filterParseLoop false ps (s ++ rest) = filterParseLoop false ps' rest
        ∧ After call base vs (run call e c).1 (run call e c).2 (n + e.size) ps' := by
  induction hr with
  | pred hw =>
    intro base vs c n ps h hbase hlegal rest
    exact h.pred hbase hw hlegal rest
  | @and l r s t _ _ ihl ihr =>
    intro base vs c n ps h hbase hlegal rest
    obtain ⟨ps₁, h₁, hafter⟩ := ihl h hbase hlegal.1 (FilterOp.and.string ++ (t ++ rest))
    obtain ⟨ps₂, h₂, hlast⟩ := ihr (hafter.and hbase) hbase hlegal.2 rest
    refine ⟨ps₂, ?_, ?_⟩
    · simp only [append_assoc]
      rw [h₁, loop_op (by decide) fun h => absurd h (by decide), h₂]
    · rw [show n + (l.and r).size = n + l.size + 1 + r.size by simp only [Expr.size]; omega]
      exact hlast
  | @or l r s t _ _ ihl ihr =>
    intro base vs c n ps h hbase hlegal rest
    obtain ⟨ps₁, h₁, hafter⟩ := ihl h hbase hlegal.1 (FilterOp.or.string ++ (t ++ rest))
    obtain ⟨ps₂, h₂, hlast⟩ := ihr (hafter.or hbase) hbase hlegal.2 rest
    refine ⟨ps₂, ?_, ?_⟩
    · simp only [append_assoc]
      rw [h₁, loop_op (by decide) fun h => absurd h (by decide), h₂]
    · rw [show n + (l.or r).size = n + l.size + 1 + r.size by simp only [Expr.size]; omega]
      exact hlast
  | @paren e s w₀ w₁ hw _ ih =>
    intro base vs c n ps h hbase hlegal rest
    simp only [mem_append, or_imp, forall_and] at hw
    obtain ⟨n', rfl, hopen⟩ := h.openParen
    obtain ⟨ps₁, h₁, hafter⟩ := ih hopen (by simp) hlegal (41 :: (w₁ ++ rest))
    obtain ⟨ps₂, h₂, hlast⟩ := hafter.closeParen (w₁ ++ rest)
    refine ⟨ps₂, ?_, ?_⟩
    · simp only [append_assoc, cons_append]
      rw [loop_space hw.1, filterParseLoop.eq_2, if_neg (by decide), if_neg (by decide),
        if_neg (by decide), if_pos (by decide), h₁, h₂, loop_space hw.2]
    · rw [show n' + c.ops.length + e.paren.size = n' + e.size + c.ops.length by
        simp only [Expr.size]; omega]
      exact hlast

lemma filterParse_coded (hr : Renders e s)
    (hlegal : e.Legal (· ≠ 34) call) :
    ∃ items, filterParse s = .ok (encode items) ∧ Coded call [fun rec => e.value call rec] items
      ∧ items.length = e.size := by
  have hready : Ready call [] [] ⟨none, none⟩ 0 ⟨[], [], []⟩ :=
    ⟨rfl, rfl, [], rfl, ⟨fun _ => rfl, by simp, rfl⟩, rfl⟩
  obtain ⟨ps, hps, hafter⟩ := hready.expr hr (by simp) hlegal []
  obtain ⟨pre, items, hst, hpre, hpf, hc, hn⟩ := hafter.closed
  rw [append_nil] at hps hst
  refine ⟨items, ?_, ?_, by rw [hn, zero_add]⟩
  · rw [filterParse, hps]
    show popRest (flushOperand ps).opstack (flushOperand ps).postfixList = _
    rw [flushOperand_opstack, hst, popRest_ops _ hpre, hpf]
  · rwa [show (run call e ⟨none, none⟩).1.finVal (run call e ⟨none, none⟩).2 = fun rec =>
      e.value call rec
      from funext (run_value e)] at hc

end

section

variable {call : EventCall ρ}

variable (call) in
def Item.pred : Item → FilterPred ρ
  | .cmp field op value => ⟨0, fun rec _ _ => predResult call field op value rec⟩
  | .logic op => if op = .and then filterPredAnd else filterPredOr

variable {pred : FilterPred ρ}

lemma comparisonPred_eq {field value : List UInt8}
    (h : ∃ pred, comparisonPred call op field value = .ok pred) :
    comparisonPred call op field value = .ok (Item.pred call (.cmp field op value)) := by
  obtain ⟨pred, h⟩ := h
  have hres : ∀ rec, predResult call field op value rec = pred.fn rec false false := fun rec => by
    rw [predResult, h]
  rw [h, Item.pred]
  simp only [hres]
  unfold comparisonPred at h
  split at h
  · cases h
  split_ifs at h
  · cases h
    rfl
  all_goals
    split at h
    · cases h
    first
      | cases h
        done
      | cases h
        rfl

lemma replaceLoop_operands (field value : List UInt8) (pf : List PostfixElt) (nPreds : ℕ)
    (filter : List (FilterPred ρ)) :
    replaceLoop call false
    (postfixOperand field :: postfixOperand value :: pf) none none nPreds filter
      = replaceLoop call false pf (some field) (some value) nPreds filter := rfl

lemma replaceLoop_op {operand1 operand2 : Option (List UInt8)}
    {pf : List PostfixElt}
    {nPreds : ℕ} {filter : List (FilterPred ρ)} (hop : op ≠ .none)
    (hn : nPreds ≠ MAX_FILTER_PRED) (hpred : eltPred call op operand1 operand2 = .ok pred) :
    replaceLoop call false (postfixOp op :: pf) operand1 operand2 nPreds filter =
      match filterAddPredFn filter pred with
      | .error e => .error e
      | .ok filter => replaceLoop call false pf none none (nPreds + 1) filter := by
  have hpred' : eltPred call (postfixOp op).op operand1 operand2 = .ok pred := hpred
  rw [replaceLoop, if_neg (show (postfixOp op).op ≠ .none from hop), if_neg hn, hpred']
  rfl

lemma replaceLoop_items : ∀ {items : List Item} {nPreds : ℕ} {filter : List (FilterPred ρ)},
    (∀ i ∈ items, ItemOk call i) → filter.length = nPreds →
    nPreds + items.length ≤ MAX_FILTER_PRED →
    replaceLoop call false (encode items) none none nPreds filter
    = .ok (filter ++ items.map (Item.pred call))
  | [], _, filter, _, _, _ => by rw [map_nil, append_nil]; rfl
  | item :: items, nPreds, filter, hok, hfilter, hlen => by
    rw [length_cons] at hlen
    have hadd : ∀ pred : FilterPred ρ, filterAddPredFn filter pred = .ok (filter ++ [pred]) :=
      fun pred => by rw [filterAddPredFn, if_neg (by omega)]
    have ih : replaceLoop call false (encode items) none none (nPreds + 1)
        (filter ++ [Item.pred call item])
        = .ok (filter ++ (item :: items).map (Item.pred call)) := by
      rw [replaceLoop_items (fun i hi => hok i (mem_cons_of_mem _ hi)) (by simp [hfilter])
        (by omega)]
      simp
    have hitem := hok item mem_cons_self
    cases item with
    | cmp field op value =>
      obtain ⟨hop, hpred⟩ := hitem
      obtain ⟨hnone, -, hand, hor⟩ := compOps_ne hop
      show replaceLoop call false
          (postfixOperand field :: postfixOperand value :: postfixOp op :: encode items)
        none none nPreds filter = _
      rw [replaceLoop_operands, replaceLoop_op hnone (by omega)
        (show eltPred call op (some field) (some value)
        = .ok (Item.pred call (.cmp field op value)) by
          rw [eltPred, if_neg hand, if_neg hor]
          exact comparisonPred_eq hpred), hadd]
      exact ih
    | logic op =>
      have hpred : eltPred call op none none = .ok (Item.pred call (.logic op)) := by
        rcases hitem with rfl | rfl <;> rfl
      have hnone : op ≠ .none := by rcases hitem with rfl | rfl <;> decide
      show replaceLoop call false (postfixOp op :: encode items) none none nPreds filter = _
      rw [replaceLoop_op hnone (by omega) hpred, hadd]
      exact ih

lemma matchLoop_push {rec : ρ} {preds : List (FilterPred ρ)}
    {st : List Bool}
    {val1 val2 : Bool} (h : pred.popN = 0) :
    matchLoop rec (pred :: preds) st val1 val2
      = matchLoop rec preds (pred.fn rec val1 val2 :: st) val1 val2 := by
  rw [matchLoop.eq_def]
  dsimp only
  rw [if_pos h]

lemma matchLoop_items (rec : ρ) : ∀ {items : List Item} {st st' : List Bool} (val1 val2 : Bool),
    (∀ i ∈ items, ItemOk call i) → evalItems call rec items st = some st' →
    matchLoop rec (items.map (Item.pred call)) st val1 val2 = st'.head?
  | [], st, st', _, _, _, h => by
    cases h
    rfl
  | .cmp field op value :: items, st, st', val1, val2, hok, h => by
    rw [map_cons, matchLoop_push rfl]
    exact matchLoop_items rec val1 val2 (fun i hi => hok i (mem_cons_of_mem _ hi)) h
  | .logic op :: items, x :: y :: st, st', _, _, hok, h => by
    have hfn : (Item.pred call (.logic op)).popN = 2
        ∧ (Item.pred call (.logic op)).fn rec x y = applyOp op x y := by
      rcases hok _ mem_cons_self with rfl | rfl <;> exact ⟨rfl, rfl⟩
    rw [map_cons, matchLoop, hfn.1, if_neg (by decide), if_neg (by simp), hfn.2]
    exact matchLoop_items rec x y (fun i hi => hok i (mem_cons_of_mem _ hi)) h
  | .logic _ :: _, [], _, _, _, _, h => by cases h
  | .logic _ :: _, [_], _, _, _, _, h => by cases h

lemma replacePreds_items {items : List Item} {v : ρ → Bool} (h : Coded call [v] items)
    (hlen : items.length ≤ MAX_FILTER_PRED) :
    replacePreds call (encode items) false = .ok (items.map (Item.pred call)) := by
  have hcount := h.count
  rw [length_singleton] at hcount
  rw [replacePreds, checkPreds, if_neg (by omega)]
  show replaceLoop call false (encode items) none none 0 [] = .ok ([] ++ items.map (Item.pred call))
  exact replaceLoop_items h.ok rfl (by omega)

/-- A string of the grammar whose operands have no quotation mark is parsed, and the filter returns
the value of the expression on every record. -/
theorem filter_matches_value {e : Expr} {s : List UInt8} (hr : Renders e s)
    (hlegal : e.Legal (· ≠ 34) call) (hsize : e.size ≤ MAX_FILTER_PRED) :
    ∃ filter, ftraceProfileSetFilter call s = .ok filter
      ∧ ∀ rec, filterMatchPreds filter rec = some (e.value call rec) := by
  obtain ⟨items, hparse, hc, hlen⟩ := filterParse_coded hr hlegal
  refine ⟨items.map (Item.pred call), ?_, fun rec => ?_⟩
  · rw [ftraceProfileSetFilter, hparse]
    exact replacePreds_items hc (hlen ▸ hsize)
  · exact matchLoop_items rec false false hc.ok (hc.eval rec)

def stringCall : EventCall (List UInt8) where
  findEventField _ := some ⟨.dynString, 0, false⟩
  strictStrtoll _ := none
  strictStrtoull _ := none
  matchString _ _ value rec := value == rec
  matchNumber _ _ _ _ := false

lemma legal_equal {v : UInt8} (hv : PlainChar v) (h34 : v ≠ 34) :
    (Expr.pred [97] .eq [v]).Legal (· ≠ 34) stringCall := by
  refine ⟨⟨by simp, by decide, by simpa using by decide⟩, ⟨by simp, by simp [MAX_FILTER_STR_VAL], ?_⟩,
    by decide, _, rfl⟩
  simpa using ⟨hv, h34⟩

theorem filter_matches_value_three :
    ∃ filter, ftraceProfileSetFilter stringCall
        [97, 61, 61, 98, 124, 124, 97, 61, 61, 99, 38, 38, 97, 61, 61, 100] = .ok filter
      ∧ filterMatchPreds filter [98] = some true := by
  have hb : Renders (.pred [97] .eq [98]) [97, 61, 61, 98] := .plain
  have hc : Renders (.pred [97] .eq [99]) [97, 61, 61, 99] := .plain
  have hd : Renders (.pred [97] .eq [100]) [97, 61, 61, 100] := .plain
  obtain ⟨filter, hset, hmatch⟩ := filter_matches_value (hb.or (hc.and hd))
    ⟨legal_equal (by decide) (by decide), legal_equal (by decide) (by decide),
      legal_equal (by decide) (by decide)⟩ (by decide)
  refine ⟨filter, hset, ?_⟩
  rw [hmatch]
  decide

/-- The filter `(a==b")`: the quotation mark hides the parenthesis. -/
theorem filter_quote_unbalanced :
    ∃ (e : Expr) (s : List UInt8), Renders e s ∧ e.Legal (fun _ => True) stringCall
      ∧ e.size ≤ MAX_FILTER_PRED
      ∧ ftraceProfileSetFilter stringCall s = .error (.err .unbalancedParen) := by
  have hb : Renders (.pred [97] .eq [98, 34]) [97, 61, 61, 98, 34] := .plain
  have hw : ∀ c ∈ [] ++ ([] : List UInt8), isspace c = true := by simp
  refine ⟨_, _, hb.paren hw, ⟨?_, ?_, by decide, _, rfl⟩, by decide, by rfl⟩
  · exact ⟨by simp, by decide, by simpa using by decide⟩
  · exact ⟨by simp, by decide, by simpa using by decide⟩

/-- `top` of `filter_match_preds` at the end; `none` if an operator finds too few values. -/
def stackTop : List (FilterPred ρ) → ℕ → Option ℕ
  | [], top => some top
  | pred :: preds, top =>
    if pred.popN = 0 then stackTop preds (top + 1)
    else if pred.popN > top then none
    else stackTop preds (top - 1)

lemma stackTop_items {rec : ρ} : ∀ {items : List Item} {st st' : List Bool},
    (∀ i ∈ items, ItemOk call i) → evalItems call rec items st = some st' →
    stackTop (items.map (Item.pred call)) st.length = some st'.length
  | [], st, st', _, h => by
    cases h
    rfl
  | .cmp _ _ _ :: items, st, st', hok, h =>
    @stackTop_items rec items (_ :: st) st' (fun i hi => hok i (mem_cons_of_mem _ hi)) h
  | .logic op :: items, x :: y :: st, st', hok, h => by
    have hpop : (Item.pred call (.logic op)).popN = 2 := by
      rcases hok _ mem_cons_self with rfl | rfl <;> rfl
    rw [map_cons, stackTop, hpop, if_neg (by decide), if_neg (by simp)]
    exact @stackTop_items rec items (_ :: st) st' (fun i hi => hok i (mem_cons_of_mem _ hi)) h
  | .logic _ :: _, [], _, _, h => by cases h
  | .logic _ :: _, [_], _, _, h => by cases h

end

end LinuxKernel.Trace
