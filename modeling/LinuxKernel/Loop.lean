import Mathlib

/-!
# Loops

A loop is its body: a pass either goes round again or leaves with a result. `run` bounds the number
of passes; the rule for a loop asks for an invariant and a variant, and gives a result for every
bound above the variant.

A search loop over the indices of a bit array has the usual answer: the first hit, or none.
-/

namespace LinuxKernel

inductive Pass (σ ρ : Type*) where
  | again (s : σ)
  | leave (r : ρ)

variable {σ ρ : Type*}

def Pass.run (body : σ → Pass σ ρ) : ℕ → σ → Option ρ
  | 0, _ => none
  | n + 1, s => match body s with
    | .again s' => run body n s'
    | .leave r => some r

/-- What a pass does to the state it starts from, of variant `n`: it keeps the invariant and lowers
the variant, or leaves with `Q`. -/
def Pass.Next (Inv : σ → Prop) (Q : ρ → Prop) (μ : σ → ℕ) (n : ℕ) : Pass σ ρ → Prop
  | .again s => Inv s ∧ μ s < n
  | .leave r => Q r

lemma Pass.run_of_next {body : σ → Pass σ ρ} {Inv : σ → Prop} {Q : ρ → Prop} {μ : σ → ℕ}
    (hstep : ∀ s, Inv s → (body s).Next Inv Q μ (μ s)) :
    ∀ (n : ℕ) {s : σ}, Inv s → μ s < n → ∃ r, Pass.run body n s = some r ∧ Q r
  | 0, _, _, hn => by omega
  | n + 1, s, hs, hn => by
    have h := hstep s hs
    rw [run]
    cases hb : body s with
    | again s' =>
      rw [hb] at h
      exact run_of_next hstep n h.1 (by have := h.2; omega)
    | leave r =>
      rw [hb] at h
      exact ⟨r, rfl, h⟩

section

variable {n : ℕ} (bit : Fin n → Bool)

def findNextAux : ℕ → ℕ → Option (Fin n)
  | 0, _ => none
  | k + 1, i => if h : i < n then if bit ⟨i, h⟩ then some ⟨i, h⟩ else findNextAux k (i + 1) else none

/-- The first index from `i` on with its bit set. -/
def findNext (i : ℕ) : Option (Fin n) := findNextAux bit (n - i) i

variable {bit}

lemma findNextAux_some : ∀ {k i : ℕ} {m : Fin n}, findNextAux bit k i = some m →
    bit m = true ∧ i ≤ m ∧ ∀ j : Fin n, i ≤ j → j < m → bit j = false
  | k + 1, i, m, h => by
    rw [findNextAux] at h
    split_ifs at h with hi hb
    · obtain rfl := Option.some.inj h
      exact ⟨hb, le_rfl, fun j h1 h2 => absurd h2 (by simp [Fin.lt_def]; omega)⟩
    obtain ⟨h1, h2, h3⟩ := findNextAux_some h
    refine ⟨h1, by omega, fun j hj hm => ?_⟩
    rcases Nat.eq_or_lt_of_le hj with rfl | hj
    · simpa using hb
    · exact h3 j hj hm

lemma findNextAux_none : ∀ {k i : ℕ}, findNextAux bit k i = none → ∀ j : Fin n, i ≤ j → j < i + k →
    bit j = false
  | 0, i, _, j, h1, h2 => by omega
  | k + 1, i, h, j, h1, h2 => by
    rw [findNextAux] at h
    split_ifs at h with hi hb
    · rcases Nat.eq_or_lt_of_le h1 with rfl | h1
      · simpa using hb
      · exact findNextAux_none h j h1 (by omega)
    · omega

lemma findNext_some {i : ℕ} {m : Fin n} (h : findNext bit i = some m) :
    bit m = true ∧ i ≤ m ∧ ∀ j : Fin n, i ≤ j → j < m → bit j = false :=
  findNextAux_some h

lemma findNext_none {i : ℕ} (h : findNext bit i = none) (j : Fin n) (hj : i ≤ j) :
    bit j = false :=
  findNextAux_none h j hj (by omega)

end

end LinuxKernel
