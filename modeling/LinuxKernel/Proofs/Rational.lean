import LinuxKernel.Rational

/-!
# What the rational approximation is

The convergents before and after a pass have determinant 1 or -1, and the given fraction lies
between them. So no fraction within the limits lies between the result and the given fraction; one
on the other side of the given fraction can be closer.
-/

namespace LinuxKernel.Lib

variable {N D maxN maxD : ℕ}

structure ApproxInv (N D maxN maxD : ℕ) (s : Approx) : Prop where
  num : s.n * s.n1 + s.d * s.n0 = N
  den : s.n * s.d1 + s.d * s.d0 = D
  det : s.n1 * s.d0 = s.n0 * s.d1 + 1 ∨ s.n0 * s.d1 = s.n1 * s.d0 + 1
  gcd : Nat.gcd s.n s.d = Nat.gcd N D
  pos : 0 < s.n ∨ s.n1 = 1 ∧ s.d1 = 0
  num_le : s.n0 ≤ maxN
  den_le : s.d0 ≤ maxD

lemma ApproxInv.step {w : ℕ} {s : Approx} (h : ApproxInv N D maxN maxD s) (hN : N < 2 ^ w)
    (hD : D < 2 ^ w) (hmax : ¬ (maxN < s.n1 ∨ maxD < s.d1)) (hd : s.d ≠ 0) :
    ∃ n1 d1, approxPass w maxN maxD s = .again ⟨s.d, s.n % s.d, s.n1, s.d1, n1, d1⟩ ∧
      ApproxInv N D maxN maxD ⟨s.d, s.n % s.d, s.n1, s.d1, n1, d1⟩ := by
  have hmod := Nat.div_add_mod s.n s.d
  have hpos := Nat.pos_of_ne_zero hd
  have hnum : s.d * (s.n0 + s.n / s.d * s.n1) + s.n % s.d * s.n1 = N := by
    rw [← h.num]
    nth_rewrite 3 [← hmod]
    ring
  have hden : s.d * (s.d0 + s.n / s.d * s.d1) + s.n % s.d * s.d1 = D := by
    rw [← h.den]
    nth_rewrite 3 [← hmod]
    ring
  have hfit : ∀ {x y z m : ℕ}, s.d * (x + y) + z = m → m < 2 ^ w →
      addMod w x (y % 2 ^ w) = x + y := by
    intro x y z m he hm
    have := Nat.le_mul_of_pos_left (x + y) hpos
    rw [Nat.mod_eq_of_lt (by omega), addMod_of_lt (by omega)]
  refine ⟨s.n0 + s.n / s.d * s.n1, s.d0 + s.n / s.d * s.d1, ?_, hnum, hden, ?_, ?_, .inl hpos,
    not_lt.mp fun hlt => hmax (.inl hlt), not_lt.mp fun hlt => hmax (.inr hlt)⟩
  · rw [approxPass, if_neg hmax, if_neg hd]
    simp only [hfit hnum hN, hfit hden hD]
  · rcases h.det with hdet | hdet
    · right
      simp only
      linarith
    · left
      simp only
      linarith
  · rw [← h.gcd, Nat.gcd_comm s.n, Nat.gcd_rec s.d s.n, Nat.gcd_comm]

/-- No fraction with numerator and denominator within the limits is strictly between `n / d` and
`N / D`, or is `N / D`, unless `n / d` is. -/
def BestOnSide (N D maxN maxD n d : ℕ) : Prop :=
  ∀ p q, p ≤ maxN → 1 ≤ q → q ≤ maxD →
    ¬ (n * q < p * d ∧ p * D ≤ N * q) ∧ ¬ (p * d < n * q ∧ N * q ≤ p * D)

/-- A fraction `p / q` between two convergents is a combination of them with coefficients `u` and
`v`, so its numerator and denominator are at least those of the later one. -/
lemma le_of_between (n0 d0 : ℤ) {n d n1 d1 p q u v : ℤ} (hn : 0 ≤ n) (hd : 0 ≤ d)
    (hnd : 0 < n + d) (hn0 : 0 ≤ n0) (hd0 : 0 ≤ d0) (hn1 : 0 ≤ n1) (hd1 : 0 ≤ d1) (hq : 0 < q)
    (hv : 0 < v) (hle : d * v ≤ n * u) (hcomb : (d0 * u + d1 * v = q ∧ n0 * u + n1 * v = p) ∨
      d0 * u + d1 * v = -q) : n1 ≤ p ∧ d1 ≤ q := by
  have hu : 0 ≤ u := by
    by_contra hneg
    rcases hn.eq_or_lt with rfl | hpos
    · have := mul_pos (show 0 < d by omega) hv
      omega
    · have := mul_neg_of_pos_of_neg hpos (not_le.mp hneg)
      have := mul_nonneg hd hv.le
      omega
  have h1 := mul_nonneg hn0 hu
  have h2 := mul_nonneg hd0 hu
  have h3 := le_mul_of_one_le_right hn1 (show 1 ≤ v by omega)
  have h4 := le_mul_of_one_le_right hd1 (show 1 ≤ v by omega)
  rcases hcomb with ⟨h5, h6⟩ | h5 <;> omega

lemma ApproxInv.between {s : Approx} (h : ApproxInv N D maxN maxD s) (hD : 1 ≤ D)
    (hmax : maxN < s.n1 ∨ maxD < s.d1) : BestOnSide N D maxN maxD s.n0 s.d0 := by
  obtain ⟨n, d, n0, d0, n1, d1⟩ := s
  obtain ⟨hnum, hden, hdet, -, -, -, -⟩ := h
  simp only at hnum hden hdet hmax ⊢
  have hnd : 0 < n + d := by
    by_contra h0
    rw [show n = 0 by omega, show d = 0 by omega] at hden
    omega
  intro p q hp hq hq'
  have hvalue : (N * q - p * D : ℤ) = n * (n1 * q - p * d1) - d * (p * d0 - n0 * q) := by
    rw [← hnum, ← hden]
    push_cast
    ring
  zify at hnd hq
  have hfar : ¬ (((n1 : ℤ) ≤ p) ∧ (d1 : ℤ) ≤ q) := by omega
  constructor
  · rintro ⟨h1, h2⟩
    zify at h1 h2
    refine hfar (le_of_between n0 d0 (n := n) (d := d) (u := n1 * q - p * d1)
      (v := p * d0 - n0 * q) (by omega) (by omega) hnd (by omega) (by omega) (by omega) (by omega)
      (by omega) (by omega) (by omega) ?_)
    rcases hdet with hdet | hdet <;> zify at hdet
    · exact .inl ⟨by linear_combination (q : ℤ) * hdet, by linear_combination (p : ℤ) * hdet⟩
    · exact .inr (by linear_combination -(q : ℤ) * hdet)
  · rintro ⟨h1, h2⟩
    zify at h1 h2
    refine hfar (le_of_between n0 d0 (n := n) (d := d) (u := p * d1 - n1 * q)
      (v := n0 * q - p * d0) (by omega) (by omega) hnd (by omega) (by omega) (by omega) (by omega)
      (by omega) (by omega) (by linarith) ?_)
    rcases hdet with hdet | hdet <;> zify at hdet
    · exact .inr (by linear_combination -(q : ℤ) * hdet)
    · exact .inl ⟨by linear_combination (q : ℤ) * hdet, by linear_combination (p : ℤ) * hdet⟩

lemma ApproxInv.le_reduced {s : Approx} (h : ApproxInv N D maxN maxD s) (hn : 0 < s.n)
    (hD : 1 ≤ D) : s.n1 ≤ N / Nat.gcd N D ∧ s.d1 ≤ D / Nat.gcd N D := by
  have hg : Nat.gcd N D ≤ s.n := h.gcd ▸ Nat.gcd_le_left s.d hn
  have hg0 : 0 < Nat.gcd N D := Nat.gcd_pos_of_pos_right N hD
  have hnum := h.num
  have hden := h.den
  constructor
  · rw [Nat.le_div_iff_mul_le hg0]
    calc s.n1 * Nat.gcd N D ≤ s.n1 * s.n := Nat.mul_le_mul_left _ hg
      _ ≤ N := by linarith [Nat.zero_le (s.d * s.n0)]
  · rw [Nat.le_div_iff_mul_le hg0]
    calc s.d1 * Nat.gcd N D ≤ s.d1 * s.n := Nat.mul_le_mul_left _ hg
      _ ≤ D := by linarith [Nat.zero_le (s.d * s.d0)]

lemma rational_run {w : ℕ} (hN : N < 2 ^ w) (hD : D < 2 ^ w) (hD0 : 1 ≤ D) (hmax1 : 1 ≤ maxN) :
    ∀ (fuel : ℕ) {s : Approx}, ApproxInv N D maxN maxD s → s.d < fuel →
      ∃ n d, Pass.run (approxPass w maxN maxD) fuel s = some (n, d) ∧ n ≤ maxN ∧ d ≤ maxD ∧
        BestOnSide N D maxN maxD n d ∧
        (N / Nat.gcd N D ≤ maxN → D / Nat.gcd N D ≤ maxD → 1 ≤ d ∧ n * D = N * d)
  | 0, _, _, hfuel => by omega
  | fuel + 1, s, h, hfuel => by
    by_cases hmax : maxN < s.n1 ∨ maxD < s.d1
    · refine ⟨s.n0, s.d0, ?_, h.num_le, h.den_le, h.between hD0 hmax, fun h1 h2 => ?_⟩
      · rw [Pass.run, approxPass, if_pos hmax]
      · have hpos : 0 < s.n := h.pos.resolve_right (by omega)
        obtain ⟨h3, h4⟩ := h.le_reduced hpos hD0
        omega
    by_cases hd : s.d = 0
    · have hn := h.num
      have hd' := h.den
      rw [hd, Nat.zero_mul, add_zero] at hn hd'
      have hpos : 0 < s.n := Nat.pos_of_ne_zero fun h0 => by rw [h0] at hd'; omega
      refine ⟨s.n1, s.d1, ?_, by omega, by omega, fun p q _ _ _ => ?_, fun _ _ => ⟨?_, ?_⟩⟩
      · rw [Pass.run, approxPass, if_neg hmax, if_pos hd]
      · rw [← hn, ← hd', Nat.mul_left_comm, Nat.mul_assoc, Nat.mul_le_mul_left_iff hpos,
          Nat.mul_le_mul_left_iff hpos]
        omega
      · exact Nat.pos_of_ne_zero fun h0 => by rw [h0] at hd'; omega
      · rw [← hn, ← hd']
        ring
    · obtain ⟨n1, d1, hpass, hinv⟩ := h.step hN hD hmax hd
      have hlt := Nat.mod_lt s.n (Nat.pos_of_ne_zero hd)
      rw [Pass.run, hpass]
      exact rational_run hN hD hD0 hmax1 fuel hinv (show s.n % s.d < fuel by omega)

end LinuxKernel.Lib
