import LinuxKernel.Kconfig
import Mathlib.Logic.Basic
import Mathlib.Tactic.SplitIfs

/-!
# `expr_transform` keeps the value

What `expr_transform` returns has a negation only before a symbol that is not a constant. On such an
expression it does nothing, so the calls on what was just built end, and each step is an identity of
the three values.
-/

namespace LinuxKernel.Kconfig

variable {S : Type*} {T : SymbolTable S}

section

@[simp] lemma Tristate.not_not (a : Tristate) : a.not.not = a := by cases a <;> rfl

lemma Tristate.not_or (a b : Tristate) : (a.or b).not = a.not.and b.not := by
  cases a <;> cases b <;> rfl

lemma Tristate.not_and (a b : Tristate) : (a.and b).not = a.not.or b.not := by
  cases a <;> cases b <;> rfl

variable (v : Assignment T) {sym : S}

lemma string_yes : symGetStringValue v T.yes = "y" := by
  rw [symGetStringValue, T.type_yes, v.curr_yes]
  rfl

lemma string_mod : symGetStringValue v T.mod = "m" := by
  rw [symGetStringValue, T.type_mod, v.curr_mod]
  rfl

lemma string_no : symGetStringValue v T.no = "n" := by
  rw [symGetStringValue, T.type_no, v.curr_no]
  rfl

lemma boolean_cases (h : T.type sym = .boolean) :
    ((v.curr sym).tri = .yes ∧ symGetStringValue v sym = "y") ∨
      ((v.curr sym).tri = .no ∧ symGetStringValue v sym = "n") := by
  rw [symGetStringValue, if_pos (.inl h)]
  cases htri : (v.curr sym).tri with
  | no => exact .inr ⟨rfl, rfl⟩
  | mod => exact absurd htri (v.boolean sym h)
  | yes => exact .inl ⟨rfl, rfl⟩

end

section

variable [DecidableEq S] (v : Assignment T)

lemma transformEqual_value (left right : S) :
    exprCalcValue v (transformEqual T left right) = exprCalcValue v (.equal left right) := by
  rw [transformEqual]
  split_ifs with hty hno hmod hyes
  · rfl
  · rw [hno, exprCalcValue, exprCalcValue, exprCalcValue, string_no]
    rcases boolean_cases v (not_not.mp hty) with ⟨htri, hs⟩ | ⟨htri, hs⟩ <;> rw [htri, hs] <;> rfl
  · rw [hmod, exprCalcValue, exprCalcValue, string_mod, v.curr_no]
    rcases boolean_cases v (not_not.mp hty) with ⟨-, hs⟩ | ⟨-, hs⟩ <;> rw [hs] <;> rfl
  · rw [hyes, exprCalcValue, exprCalcValue, string_yes]
    rcases boolean_cases v (not_not.mp hty) with ⟨htri, hs⟩ | ⟨htri, hs⟩ <;> rw [htri, hs] <;> rfl
  · rfl

lemma transformUnequal_value (left right : S) :
    exprCalcValue v (transformUnequal T left right) = exprCalcValue v (.unequal left right) := by
  rw [transformUnequal]
  split_ifs with hty hno hmod hyes
  · rfl
  · rw [hno, exprCalcValue, exprCalcValue, string_no]
    rcases boolean_cases v (not_not.mp hty) with ⟨htri, hs⟩ | ⟨htri, hs⟩ <;> rw [htri, hs] <;> rfl
  · rw [hmod, exprCalcValue, exprCalcValue, string_mod, v.curr_yes]
    rcases boolean_cases v (not_not.mp hty) with ⟨-, hs⟩ | ⟨-, hs⟩ <;> rw [hs] <;> rfl
  · rw [hyes, exprCalcValue, exprCalcValue, exprCalcValue, string_yes]
    rcases boolean_cases v (not_not.mp hty) with ⟨htri, hs⟩ | ⟨htri, hs⟩ <;> rw [htri, hs] <;> rfl
  · rfl

lemma transformNotSymbol_value (sym : S) :
    exprCalcValue v (transformNotSymbol T sym) = exprCalcValue v (.not (.symbol sym)) := by
  rw [transformNotSymbol]
  split_ifs with hyes hmod hno
  · rw [hyes, exprCalcValue, exprCalcValue, exprCalcValue, v.curr_no, v.curr_yes]
    rfl
  · rw [hmod, exprCalcValue, exprCalcValue, exprCalcValue, v.curr_mod]
    rfl
  · rw [hno, exprCalcValue, exprCalcValue, exprCalcValue, v.curr_no, v.curr_yes]
    rfl
  · rfl

end

def PlainTest (T : SymbolTable S) (left right : S) : Prop :=
  T.type left = .boolean → right ≠ T.no ∧ right ≠ T.mod ∧ right ≠ T.yes

/-- What `expr_transform` returns. -/
inductive Normal (T : SymbolTable S) : Expr S → Prop
  | symbol (sym : S) : Normal T (.symbol sym)
  | not (sym : S) : sym ≠ T.yes → sym ≠ T.mod → sym ≠ T.no → Normal T (.not (.symbol sym))
  | equal (left right : S) : PlainTest T left right → Normal T (.equal left right)
  | unequal (left right : S) : PlainTest T left right → Normal T (.unequal left right)
  | and {left right : Expr S} : Normal T left → Normal T right → Normal T (.and left right)
  | or {left right : Expr S} : Normal T left → Normal T right → Normal T (.or left right)

lemma Normal.not_boolean {sym : S} (hb : T.type sym = .boolean) :
    Normal T (.not (.symbol sym)) := by
  refine .not sym ?_ ?_ ?_ <;> rintro rfl
  · rw [T.type_yes] at hb
    cases hb
  · rw [T.type_mod] at hb
    cases hb
  · rw [T.type_no] at hb
    cases hb

section

variable [DecidableEq S] {a b a' b' : Expr S}

def Transforms (T : SymbolTable S) (e e' : Expr S) : Prop :=
  ∃ n, ∀ k, n ≤ k → exprTransform T k e = some e'

lemma transformEqual_normal (left right : S) : Normal T (transformEqual T left right) := by
  rw [transformEqual]
  split_ifs with hty hno hmod hyes
  · exact .equal _ _ fun h => absurd h hty
  · exact Normal.not_boolean (not_not.mp hty)
  · exact .symbol _
  · exact .symbol _
  · exact .equal _ _ fun _ => ⟨hno, hmod, hyes⟩

lemma transformUnequal_normal (left right : S) : Normal T (transformUnequal T left right) := by
  rw [transformUnequal]
  split_ifs with hty hno hmod hyes
  · exact .unequal _ _ fun h => absurd h hty
  · exact .symbol _
  · exact .symbol _
  · exact Normal.not_boolean (not_not.mp hty)
  · exact .unequal _ _ fun _ => ⟨hno, hmod, hyes⟩

lemma transformNotSymbol_normal (sym : S) : Normal T (transformNotSymbol T sym) := by
  rw [transformNotSymbol]
  split_ifs with hyes hmod hno
  · exact .symbol _
  · exact .symbol _
  · exact .symbol _
  · exact .not sym hyes hmod hno

lemma Transforms.step {e e' : Expr S} (ha : Transforms T a a') (hb : Transforms T b b')
    (h : ∀ k, exprTransform T k a = some a' → exprTransform T k b = some b' →
      exprTransform T (k + 1) e = some e') : Transforms T e e' := by
  obtain ⟨n, hn⟩ := ha
  obtain ⟨m, hm⟩ := hb
  refine ⟨max n m + 1, fun k hk => ?_⟩
  obtain ⟨k, rfl⟩ : ∃ j, k = j + 1 := ⟨k - 1, by omega⟩
  exact h k (hn k (by omega)) (hm k (by omega))

lemma Transforms.and (ha : Transforms T a a') (hb : Transforms T b b') :
    Transforms T (.and a b) (.and a' b') := by
  refine ha.step hb fun k hk hk' => ?_
  rw [exprTransform, hk, Option.bind_some, hk', Option.bind_some]

lemma Transforms.or (ha : Transforms T a a') (hb : Transforms T b b') :
    Transforms T (.or a b) (.or a' b') := by
  refine ha.step hb fun k hk hk' => ?_
  rw [exprTransform, hk, Option.bind_some, hk', Option.bind_some]

lemma transforms_of_step (h : ∀ k, exprTransform T (k + 1) a = some a') : Transforms T a a' := by
  refine ⟨1, fun k hk => ?_⟩
  obtain ⟨k, rfl⟩ : ∃ j, k = j + 1 := ⟨k - 1, by omega⟩
  exact h k

lemma Normal.transforms : ∀ {e : Expr S}, Normal T e → Transforms T e e
  | _, .symbol _ => transforms_of_step fun _ => rfl
  | _, .equal left right h => by
    refine transforms_of_step fun k => ?_
    rw [exprTransform, transformEqual]
    by_cases hty : T.type left = .boolean
    · obtain ⟨hno, hmod, hyes⟩ := h hty
      rw [if_neg (not_not.mpr hty), if_neg hno, if_neg hmod, if_neg hyes]
    · rw [if_pos hty]
  | _, .unequal left right h => by
    refine transforms_of_step fun k => ?_
    rw [exprTransform, transformUnequal]
    by_cases hty : T.type left = .boolean
    · obtain ⟨hno, hmod, hyes⟩ := h hty
      rw [if_neg (not_not.mpr hty), if_neg hno, if_neg hmod, if_neg hyes]
    · rw [if_pos hty]
  | _, .not sym hyes hmod hno => by
    refine ⟨2, fun k hk => ?_⟩
    obtain ⟨k, rfl⟩ : ∃ j, k = j + 2 := ⟨k - 2, by omega⟩
    rw [exprTransform, exprTransform, Option.bind_some]
    simp only [transformNot, transformNotSymbol, if_neg hyes, if_neg hmod, if_neg hno]
  | _, .and ha hb => ha.transforms.and hb.transforms
  | _, .or ha hb => ha.transforms.or hb.transforms

lemma Transforms.not {n : ℕ} {e : Expr S} (ha : Transforms T a a')
    (h : ∀ k, n ≤ k → transformNot T (exprTransform T k) a' = some e) :
    Transforms T (.not a) e := by
  obtain ⟨m, hm⟩ := ha
  refine ⟨max n m + 1, fun k hk => ?_⟩
  obtain ⟨k, rfl⟩ : ∃ j, k = j + 1 := ⟨k - 1, by omega⟩
  rw [exprTransform, hm k (by omega), Option.bind_some]
  exact h k (by omega)

def Negates (T : SymbolTable S) (a e : Expr S) : Prop :=
  Normal T e ∧ (∀ a₀, Transforms T a₀ a → Transforms T (.not a₀) e)
    ∧ ∀ v : Assignment T, exprCalcValue v e = (exprCalcValue v a).not

lemma Normal.negates : ∀ {a : Expr S}, Normal T a → ∃ e, Negates T a e
  | _, .symbol sym => ⟨transformNotSymbol T sym, transformNotSymbol_normal sym,
      fun _ h => h.not (n := 0) fun _ _ => rfl, fun v => transformNotSymbol_value v sym⟩
  | _, .not sym _ _ _ => by
    refine ⟨.symbol sym, .symbol sym, fun _ h => h.not (n := 1) fun k hk => ?_, fun v => ?_⟩
    · obtain ⟨k, rfl⟩ : ∃ j, k = j + 1 := ⟨k - 1, by omega⟩
      rfl
    · rw [exprCalcValue, exprCalcValue, exprCalcValue, Tristate.not_not]
  | _, .equal left right hp => by
    refine ⟨.unequal left right, .unequal left right hp, fun _ h => h.not (n := 0) fun _ _ => rfl,
      fun v => ?_⟩
    rw [exprCalcValue, exprCalcValue]
    split_ifs <;> rfl
  | _, .unequal left right hp => by
    refine ⟨.equal left right, .equal left right hp, fun _ h => h.not (n := 0) fun _ _ => rfl,
      fun v => ?_⟩
    rw [exprCalcValue, exprCalcValue]
    split_ifs <;> rfl
  | _, .and ha hb => by
    obtain ⟨ea, hna, hta, hva⟩ := ha.negates
    obtain ⟨eb, hnb, htb, hvb⟩ := hb.negates
    obtain ⟨n, hn⟩ := (hta _ ha.transforms).or (htb _ hb.transforms)
    refine ⟨.or ea eb, .or hna hnb, fun _ h => h.not hn, fun v => ?_⟩
    rw [exprCalcValue, exprCalcValue, hva, hvb, Tristate.not_and]
  | _, .or ha hb => by
    obtain ⟨ea, hna, hta, hva⟩ := ha.negates
    obtain ⟨eb, hnb, htb, hvb⟩ := hb.negates
    obtain ⟨n, hn⟩ := (hta _ ha.transforms).and (htb _ hb.transforms)
    refine ⟨.and ea eb, .and hna hnb, fun _ h => h.not hn, fun v => ?_⟩
    rw [exprCalcValue, exprCalcValue, hva, hvb, Tristate.not_or]

lemma exists_transforms : ∀ e : Expr S, ∃ e', Normal T e' ∧ Transforms T e e'
    ∧ ∀ v : Assignment T, exprCalcValue v e' = exprCalcValue v e
  | .symbol sym => ⟨.symbol sym, .symbol sym, transforms_of_step fun _ => rfl, fun _ => rfl⟩
  | .equal left right => ⟨_, transformEqual_normal left right, transforms_of_step fun _ => rfl,
      fun v => transformEqual_value v left right⟩
  | .unequal left right => ⟨_, transformUnequal_normal left right, transforms_of_step fun _ => rfl,
      fun v => transformUnequal_value v left right⟩
  | .and a b => by
    obtain ⟨a', hna, hta, hva⟩ := exists_transforms a
    obtain ⟨b', hnb, htb, hvb⟩ := exists_transforms b
    refine ⟨.and a' b', .and hna hnb, hta.and htb, fun v => ?_⟩
    rw [exprCalcValue, exprCalcValue, hva, hvb]
  | .or a b => by
    obtain ⟨a', hna, hta, hva⟩ := exists_transforms a
    obtain ⟨b', hnb, htb, hvb⟩ := exists_transforms b
    refine ⟨.or a' b', .or hna hnb, hta.or htb, fun v => ?_⟩
    rw [exprCalcValue, exprCalcValue, hva, hvb]
  | .not a => by
    obtain ⟨a', hna, hta, hva⟩ := exists_transforms a
    obtain ⟨e, hn, ht, hv⟩ := hna.negates
    refine ⟨e, hn, ht a hta, fun v => ?_⟩
    rw [hv, hva, exprCalcValue]

/-- With enough fuel `expr_transform` returns an expression, the same with any more, and the
expression has the value that the given one has in every assignment. -/
theorem expr_transform_value (T : SymbolTable S) (e : Expr S) :
    ∃ e', (∃ n, ∀ k, n ≤ k → exprTransform T k e = some e')
      ∧ ∀ v : Assignment T, exprCalcValue v e' = exprCalcValue v e := by
  obtain ⟨e', -, ht, hv⟩ := exists_transforms (T := T) e
  exact ⟨e', ht, hv⟩

/-- What `expr_transform` returns is in normal form, and transforming it again gives it back. -/
theorem exprTransform_normal (T : SymbolTable S) (e : Expr S) :
    ∃ e', Normal T e' ∧ Transforms T e e' ∧ Transforms T e' e' := by
  obtain ⟨e', hn, ht, -⟩ := exists_transforms (T := T) e
  exact ⟨e', hn, ht, hn.transforms⟩

end

end LinuxKernel.Kconfig
