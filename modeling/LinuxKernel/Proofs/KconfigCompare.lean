import LinuxKernel.KconfigCompare
import LinuxKernel.Proofs.Kconfig

/-!
# `expr_trans_compare`

A comparison with `y` or `n` is pushed down to the symbols. For a negation it is turned into its
opposite with the same constant, which is wrong for an operand that is `m`.
-/

namespace LinuxKernel.Kconfig

variable {S : Type*} {T : SymbolTable S}

def CompareType.value : CompareType → Tristate → Tristate → Tristate
  | .equal, a, b => if a = b then .yes else .no
  | .unequal, a, b => if a = b then .no else .yes

/-- The symbols of the expression have values `y`, `m` and `n`: a symbol that stands alone is of a
boolean or tristate type, or one of the three constants. -/
def TristateExpr (T : SymbolTable S) : Expr S → Prop
  | .symbol s => T.type s = .boolean ∨ T.type s = .tristate ∨ s = T.yes ∨ s = T.mod ∨ s = T.no
  | .not e => TristateExpr T e
  | .and left right => TristateExpr T left ∧ TristateExpr T right
  | .or left right => TristateExpr T left ∧ TristateExpr T right
  | .equal _ _ | .unequal _ _ => True

/-- No operand of a negation is `m`. -/
def NegatesDecided (v : Assignment T) : Expr S → Prop
  | .not e => exprCalcValue v e ≠ .mod ∧ NegatesDecided v e
  | .and left right => NegatesDecided v left ∧ NegatesDecided v right
  | .or left right => NegatesDecided v left ∧ NegatesDecided v right
  | .symbol _ | .equal _ _ | .unequal _ _ => True

section

variable (v : Assignment T)

def Tristate.name : Tristate → String
  | .no => "n"
  | .mod => "m"
  | .yes => "y"

lemma Tristate.name_inj {a b : Tristate} : a.name = b.name ↔ a = b := by
  cases a <;> cases b <;> decide

lemma string_of_tristate {s : S} (h : TristateExpr T (.symbol s)) :
    symGetStringValue v s = (v.curr s).tri.name := by
  rcases h with h | h | rfl | rfl | rfl
  · rw [symGetStringValue, if_pos (.inl h)]
    cases (v.curr s).tri <;> rfl
  · rw [symGetStringValue, if_pos (.inr h)]
    cases (v.curr s).tri <;> rfl
  · rw [string_yes, v.curr_yes]
    rfl
  · rw [string_mod, v.curr_mod]
    rfl
  · rw [string_no, v.curr_no]
    rfl

lemma comp_value {s sym : S} (hs : TristateExpr T (.symbol s))
    (hsym : TristateExpr T (.symbol sym)) (type : CompareType) :
    exprCalcValue v (type.comp s sym) = type.value (v.curr s).tri (v.curr sym).tri := by
  cases type <;>
  · rw [CompareType.comp, exprCalcValue, string_of_tristate v hs, string_of_tristate v hsym,
      CompareType.value]
    simp only [Tristate.name_inj]

lemma wrap_value (type : CompareType) {e : Expr S} {a b : Tristate}
    (h : exprCalcValue v e = CompareType.equal.value a b) :
    exprCalcValue v (type.wrap e) = type.value a b := by
  cases type with
  | equal => exact h
  | unequal =>
    rw [CompareType.wrap, exprCalcValue, h, CompareType.value, CompareType.value]
    split_ifs <;> rfl

end

section

variable (v : Assignment T) {sym : S}

lemma value_flip (hsym : sym = T.yes ∨ sym = T.no) (type : CompareType) {a : Tristate}
    (ha : a ≠ .mod) :
    type.flip.value a (v.curr sym).tri = type.value a.not (v.curr sym).tri := by
  have htri : (v.curr sym).tri = .yes ∨ (v.curr sym).tri = .no := by
    rcases hsym with rfl | rfl
    · exact .inl (by rw [v.curr_yes])
    · exact .inr (by rw [v.curr_no])
  cases a with
  | mod => exact absurd rfl ha
  | no | yes => rcases htri with h | h <;> rw [h] <;> cases type <;> rfl

lemma and_value (a b : Tristate) :
    (CompareType.equal.value a .yes).and (CompareType.equal.value b .yes)
        = CompareType.equal.value (a.and b) .yes ∧
      (CompareType.equal.value a .no).or (CompareType.equal.value b .no)
        = CompareType.equal.value (a.and b) .no := by
  cases a <;> cases b <;> decide

lemma or_value (a b : Tristate) :
    (CompareType.equal.value a .yes).or (CompareType.equal.value b .yes)
        = CompareType.equal.value (a.or b) .yes ∧
      (CompareType.equal.value a .no).and (CompareType.equal.value b .no)
        = CompareType.equal.value (a.or b) .no := by
  cases a <;> cases b <;> decide

variable [DecidableEq S]

lemma transCompareTest_value (hsym : sym = T.yes ∨ sym = T.no) (type : CompareType) {e : Expr S}
    (he : exprCalcValue v e ≠ .mod) :
    ∃ e', transCompareTest T sym type e = some e' ∧
      exprCalcValue v e' = type.value (exprCalcValue v e) (v.curr sym).tri := by
  rcases hsym with rfl | rfl
  · refine ⟨type.wrap e, by unfold transCompareTest; rw [if_pos rfl], wrap_value v type ?_⟩
    rw [v.curr_yes]
    cases hv : exprCalcValue v e with
    | mod => exact absurd hv he
    | no | yes => rfl
  refine ⟨type.flip.wrap e, ?_, ?_⟩
  · unfold transCompareTest
    rw [if_neg T.yes_ne_no.symm, if_neg T.mod_ne_no.symm, if_pos rfl]
  rw [v.curr_no]
  cases type with
  | equal =>
    rw [CompareType.flip, CompareType.wrap, exprCalcValue]
    cases hv : exprCalcValue v e with
    | mod => exact absurd hv he
    | no | yes => rfl
  | unequal =>
    rw [CompareType.flip, CompareType.wrap]
    cases hv : exprCalcValue v e with
    | mod => exact absurd hv he
    | no | yes => rfl

lemma transCompare_value (hsym : sym = T.yes ∨ sym = T.no) :
    ∀ (type : CompareType) (e : Expr S), TristateExpr T e → NegatesDecided v e →
      ∃ e', transCompare T sym type e = some e' ∧
        exprCalcValue v e' = type.value (exprCalcValue v e) (v.curr sym).tri
  | type, .symbol s, hs, _ =>
    ⟨type.comp s sym, rfl, comp_value v hs (.inr (.inr (hsym.imp_right Or.inr))) type⟩
  | type, .equal left right, _, _ =>
    transCompareTest_value v hsym type (by rw [exprCalcValue]; split_ifs <;> decide)
  | type, .unequal left right, _, _ =>
    transCompareTest_value v hsym type (by rw [exprCalcValue]; split_ifs <;> decide)
  | type, .not e, ht, hd => by
    obtain ⟨e', he, hv⟩ := transCompare_value hsym type.flip e ht hd.2
    exact ⟨e', he, by rw [hv, value_flip v hsym type hd.1, exprCalcValue]⟩
  | type, .and left right, ht, hd => by
    obtain ⟨e1, h1, hv1⟩ := transCompare_value hsym .equal left ht.1 hd.1
    obtain ⟨e2, h2, hv2⟩ := transCompare_value hsym .equal right ht.2 hd.2
    rcases hsym with rfl | rfl
    · refine ⟨type.wrap (.and e1 e2), ?_, wrap_value v type ?_⟩
      · rw [transCompare, if_pos rfl, h1, h2]
        rfl
      · rw [v.curr_yes] at hv1 hv2 ⊢
        rw [exprCalcValue, hv1, hv2, (and_value _ _).1, exprCalcValue]
    · refine ⟨type.wrap (.or e1 e2), ?_, wrap_value v type ?_⟩
      · rw [transCompare, if_neg T.yes_ne_no.symm, if_pos rfl, h1, h2]
        rfl
      · rw [v.curr_no] at hv1 hv2 ⊢
        show (exprCalcValue v e1).or (exprCalcValue v e2) = _
        rw [hv1, hv2, (and_value _ _).2, exprCalcValue]
  | type, .or left right, ht, hd => by
    obtain ⟨e1, h1, hv1⟩ := transCompare_value hsym .equal left ht.1 hd.1
    obtain ⟨e2, h2, hv2⟩ := transCompare_value hsym .equal right ht.2 hd.2
    rcases hsym with rfl | rfl
    · refine ⟨type.wrap (.or e1 e2), ?_, wrap_value v type ?_⟩
      · rw [transCompare, if_pos rfl, h1, h2]
        rfl
      · rw [v.curr_yes] at hv1 hv2 ⊢
        rw [exprCalcValue, hv1, hv2, (or_value _ _).1, exprCalcValue]
    · refine ⟨type.wrap (.and e1 e2), ?_, wrap_value v type ?_⟩
      · rw [transCompare, if_neg T.yes_ne_no.symm, if_pos rfl, h1, h2]
        rfl
      · rw [v.curr_no] at hv1 hv2 ⊢
        show (exprCalcValue v e1).and (exprCalcValue v e2) = _
        rw [hv1, hv2, (or_value _ _).2, exprCalcValue]

end

def oneTristate : SymbolTable ℕ where
  type s := if s = 3 then .tristate else .unknown
  const s := decide (s < 3)
  yes := 0
  mod := 1
  no := 2
  type_yes := rfl
  type_mod := rfl
  type_no := rfl
  yes_ne_mod := by decide
  yes_ne_no := by decide
  mod_ne_no := by decide

def oneTristate.assign (t : Tristate) : Assignment oneTristate where
  curr s := if s = 0 then ⟨"y", .yes⟩ else if s = 1 then ⟨"m", .mod⟩
    else if s = 2 then ⟨"n", .no⟩ else ⟨"", t⟩
  curr_yes := rfl
  curr_mod := rfl
  curr_no := rfl
  boolean s h := by
    simp only [oneTristate] at h
    split_ifs at h

end LinuxKernel.Kconfig
