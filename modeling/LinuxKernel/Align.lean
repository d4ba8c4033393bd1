import LinuxKernel.Word

/-!
# Rounding to a power of two

Rounding down clears the low bits of a word, rounding up adds the mask first.
-/

namespace LinuxKernel

/-- The word `a & ~mask` of `w` bits. -/
def andNot (w a mask : ℕ) : ℕ := a &&& (2 ^ w - 1 - mask)

lemma andNot_mask {w k a : ℕ} (hk : k ≤ w) (ha : a < 2 ^ w) :
    andNot w a (2 ^ k - 1) = a / 2 ^ k * 2 ^ k := by
  have hmask : 2 ^ k - 1 < 2 ^ w := by
    have := Nat.pow_le_pow_right (show 0 < 2 by omega) hk
    have := Nat.two_pow_pos k
    omega
  rw [andNot, Nat.sub_sub, add_comm 1]
  refine Nat.eq_of_testBit_eq fun i => ?_
  rw [Nat.testBit_and, Nat.testBit_two_pow_sub_succ hmask, Nat.testBit_two_pow_sub_one,
    Nat.testBit_mul_two_pow, Nat.testBit_div_two_pow]
  by_cases hik : k ≤ i
  · rw [Nat.sub_add_cancel hik]
    by_cases hiw : i < w
    · simp [hik, hiw]
    · rw [Nat.testBit_lt_two_pow (lt_of_lt_of_le ha (Nat.pow_le_pow_right (by omega) (by omega)))]
      simp
  · simp [hik, show i < k by omega]

variable {k a b : ℕ}

lemma roundDown_le : a / 2 ^ k * 2 ^ k ≤ a := Nat.div_mul_le_self a _

lemma le_roundUp : a ≤ (a + (2 ^ k - 1)) / 2 ^ k * 2 ^ k := by
  have h := Nat.div_add_mod (a + (2 ^ k - 1)) (2 ^ k)
  have := Nat.mod_lt (a + (2 ^ k - 1)) (Nat.two_pow_pos k)
  rw [mul_comm] at h
  omega

lemma roundUp_le (hdvd : 2 ^ k ∣ b) (hab : a ≤ b) : (a + (2 ^ k - 1)) / 2 ^ k * 2 ^ k ≤ b := by
  obtain ⟨q, rfl⟩ := hdvd
  have hpos := Nat.two_pow_pos k
  have hq : (a + (2 ^ k - 1)) / 2 ^ k < q + 1 := by
    rw [Nat.div_lt_iff_lt_mul hpos, add_mul, one_mul, mul_comm q]
    omega
  rw [mul_comm (2 ^ k) q]
  exact Nat.mul_le_mul_right _ (by omega)

end LinuxKernel
