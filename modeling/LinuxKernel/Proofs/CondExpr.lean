import LinuxKernel.CondExpr
import LinuxKernel.Rpn
import Mathlib.Tactic.SplitIfs

/-!
# What `cond_evaluate_expr` returns

The array below `sp` is the stack of a run in reverse Polish notation. A list that runs to its end
and leaves no value, or several, is not rejected: the function returns `s[0]` for it.
-/

namespace LinuxKernel.Selinux

open Rpn List

variable {n : ℕ}

abbrev BoolTree (n : ℕ) := Tree (Fin n) Unit CondOp

def CondOp.bool : CondOp → Bool → Bool → Bool
  | .or, a, b => a || b
  | .and, a, b => a && b
  | .xor, a, b => a ^^ b
  | .eq, a, b => a == b
  | .neq, a, b => a != b

def condInterp (p : Fin n → CondBoolDatum) : Interp (Fin n) Unit CondOp Bool where
  leaf i := (p i).state = 1
  unary _ a := !a
  binary := CondOp.bool

def CondExpr.token : CondExpr n → Token (Fin n) Unit CondOp
  | .bool i => .leaf i
  | .not => .unary ()
  | .op o => .binary o
  | .other _ => .bad

def ofBool (b : Bool) : CInt := if b then 1 else 0

lemma CondBoolDatum.state_eq (d : CondBoolDatum) : d.state = ofBool (d.state = 1) := by
  rcases d.isvalid with h | h <;> rw [h] <;> decide

lemma not_ofBool (a : Bool) : (if ofBool a = 0 then 1 else 0 : CInt) = ofBool (!a) := by
  cases a <;> decide

lemma CondOp.apply_ofBool (o : CondOp) (a b : Bool) :
    o.apply (ofBool a) (ofBool b) = ofBool (o.bool a b) := by
  cases o <;> cases a <;> cases b <;> decide

section

/-- The array holds the stack, with its top at `sp`. -/
structure Holds (st : CondStack) (l : List Bool) : Prop where
  sp_eq : st.sp = l.length - 1
  length_le : l.length ≤ COND_EXPR_MAXDEPTH
  s_eq : ∀ i < l.length, ∀ b ∈ l.reverse[i]?, st.s i = ofBool b

variable {st : CondStack} {l : List Bool}

lemma Holds.tail {a : Bool} (h : Holds st (a :: l)) : Holds ⟨st.s, st.sp - 1⟩ l where
  sp_eq := by
    have := h.sp_eq
    simp only [length_cons] at this ⊢
    omega
  length_le := (Nat.le_succ _).trans h.length_le
  s_eq i hi b hb := by
    refine h.s_eq i (Nat.lt_succ_of_lt hi) b ?_
    rwa [reverse_cons, List.getElem?_append_left (by simpa using hi)]

lemma Holds.top {a : Bool} (h : Holds st (a :: l)) : st.get st.sp = some (ofBool a) := by
  have hle := h.length_le
  have hsp : st.sp = l.length := by
    rw [h.sp_eq, length_cons]
    omega
  rw [length_cons] at hle
  rw [CondStack.get, hsp, if_pos (by omega), Int.toNat_natCast,
    h.s_eq l.length (by simp) a (by simp)]

lemma Holds.push (h : Holds st l) (a : Bool) (hlt : l.length < COND_EXPR_MAXDEPTH) :
    ∃ st', CondStack.set ⟨st.s, st.sp + 1⟩ (st.sp + 1) (ofBool a) = some st'
      ∧ Holds st' (a :: l) := by
  have hsp : st.sp + 1 = l.length := by
    rw [h.sp_eq]
    omega
  refine ⟨⟨Function.update st.s l.length (ofBool a), l.length⟩, ?_, ?_, ?_, ?_⟩
  · rw [CondStack.set, hsp, if_pos (by omega), Int.toNat_natCast]
  · simp
  · rw [length_cons]
    omega
  · intro i hi b hb
    rw [reverse_cons] at hb
    rcases Nat.lt_succ_iff_lt_or_eq.mp hi with hlt | rfl
    · rw [List.getElem?_append_left (by simpa using hlt)] at hb
      exact (Function.update_of_ne (Nat.ne_of_lt hlt) _ _).trans (h.s_eq i hlt b hb)
    · rw [List.getElem?_append_right (by simp)] at hb
      obtain rfl : a = b := by simpa using hb
      exact Function.update_self ..

variable (p : Fin n → CondBoolDatum)

lemma condStep_holds (h : Holds st l) (cur : CondExpr n) :
    match step (condInterp p) COND_EXPR_MAXDEPTH l cur.token with
    | none => condStep p st cur = some (.error (-1))
    | some l' => ∃ st', condStep p st cur = some (.ok st') ∧ Holds st' l' := by
  have hsp := h.sp_eq
  have hle := h.length_le
  cases cur with
  | bool i =>
    rw [CondExpr.token, Rpn.step, condStep]
    by_cases hlt : l.length < COND_EXPR_MAXDEPTH
    · obtain ⟨st', hset, hst'⟩ := h.push ((p i).state = 1) hlt
      rw [if_pos hlt, if_neg (by omega), (p i).state_eq]
      exact ⟨st', by simp only [hset, Option.map_some], hst'⟩
    · rw [if_neg hlt, if_pos (by omega)]
  | not =>
    cases l with
    | nil => exact if_pos (by rw [hsp]; decide)
    | cons a l =>
      rw [length_cons] at hsp hle
      rw [CondExpr.token, Rpn.step, condStep, if_neg (by omega), h.top, Option.bind_some,
        not_ofBool]
      obtain ⟨st', hset, hst'⟩ := h.tail.push (!a) (by omega)
      simp only [Int.sub_add_cancel] at hset
      exact ⟨st', by simp only [hset, Option.map_some], hst'⟩
  | op o =>
    rcases l with _ | ⟨b, _ | ⟨a, l⟩⟩
    · exact if_pos (by rw [hsp]; decide)
    · exact if_pos (by rw [hsp, length_singleton]; decide)
    rw [length_cons, length_cons] at hsp hle
    have hx : st.get (st.sp - 1) = some (ofBool a) := h.tail.top
    have hy : st.get (st.sp - 1 + 1) = some (ofBool b) := by rw [Int.sub_add_cancel, h.top]
    obtain ⟨st', hset, hst'⟩ := h.tail.tail.push (o.bool a b) (by omega)
    simp only [Int.sub_add_cancel] at hset
    rw [CondExpr.token, Rpn.step, condStep, if_neg (by omega)]
    refine ⟨st', ?_, hst'⟩
    simp only [hx, hy, Option.bind_some, o.apply_ofBool, hset, Option.map_some]
  | other t => exact rfl

lemma condLoop_holds : ∀ (expr : List (CondExpr n)) {st : CondStack} {l : List Bool}, Holds st l →
    match run (condInterp p) COND_EXPR_MAXDEPTH l (expr.map CondExpr.token) with
    | none => condLoop p st expr = some (-1)
    | some l' => ∃ st', condLoop p st expr = st'.get 0 ∧ Holds st' l'
  | [], st, l, h => ⟨st, rfl, h⟩
  | cur :: next, st, l, h => by
    have hstep := condStep_holds p h cur
    rw [map_cons, run, condLoop]
    cases hs : step (condInterp p) COND_EXPR_MAXDEPTH l cur.token with
    | none =>
      rw [hs] at hstep
      rw [hstep]
      rfl
    | some l' =>
      rw [hs] at hstep
      obtain ⟨st', hstep, hst'⟩ := hstep
      rw [hstep]
      exact condLoop_holds next hst'

end

section

variable (p : Fin n → CondBoolDatum) (s : ℕ → CInt) {expr : List (CondExpr n)}

lemma holds_nil : Holds ⟨s, -1⟩ [] :=
  ⟨rfl, Nat.zero_le _, fun _ hi => absurd hi (Nat.not_lt_zero _)⟩

lemma Holds.bottom {st : CondStack} {l : List Bool} (h : Holds st l) :
    st.get 0 = some (st.s 0) ∧ ∀ b, l.reverse.head? = some b → st.s 0 = ofBool b := by
  refine ⟨if_pos (by decide), fun b hb => ?_⟩
  rw [head?_eq_getElem?] at hb
  refine h.s_eq 0 ?_ b hb
  have := (List.getElem?_eq_some_iff.mp hb).1
  simpa using this

lemma condEvaluateExpr_returns : ∃ r, condEvaluateExpr p s expr = some r := by
  have hloop := condLoop_holds p expr (holds_nil s)
  cases hr : run (condInterp p) COND_EXPR_MAXDEPTH [] (expr.map CondExpr.token) with
  | none =>
    rw [hr] at hloop
    exact ⟨_, hloop⟩
  | some l =>
    rw [hr] at hloop
    obtain ⟨st, hst, hl⟩ := hloop
    exact ⟨_, hst.trans hl.bottom.1⟩

lemma condEvaluateExpr_code {t : BoolTree n} (hcode : expr.map CondExpr.token = t.code)
    (hd : t.depth ≤ COND_EXPR_MAXDEPTH) :
    condEvaluateExpr p s expr = some (ofBool (t.eval (condInterp p))) := by
  have hloop := condLoop_holds p expr (holds_nil s)
  rw [hcode, run_code, if_pos (by simpa using hd)] at hloop
  obtain ⟨st, hst, hl⟩ := hloop
  rw [condEvaluateExpr, hst, hl.bottom.1, hl.bottom.2 _ rfl]

def oneTrue : Fin 1 → CondBoolDatum := fun _ => ⟨1, Or.inr rfl⟩

end

end LinuxKernel.Selinux
