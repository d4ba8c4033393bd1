import Mathlib

/-!
# Machine words

The kernel is built for two sizes of `unsigned long`. Unsigned values are naturals below `2 ^ w`,
with sums and differences taken modulo `2 ^ w`.
-/

namespace LinuxKernel

/-- The two values of `BITS_PER_LONG`. -/
inductive LongSize where
  | long32
  | long64
deriving DecidableEq

def LongSize.bits : LongSize → ℕ
  | .long32 => 32
  | .long64 => 64

def addMod (w a b : ℕ) : ℕ := (a + b) % 2 ^ w

def subMod (w a b : ℕ) : ℕ := (a + 2 ^ w - b) % 2 ^ w

lemma LongSize.bits_ge (L : LongSize) : 32 ≤ L.bits := by
  cases L <;> simp [bits]

lemma LongSize.bits_pos (L : LongSize) : 0 < L.bits := by
  have := L.bits_ge
  omega

lemma LongSize.two_pow_bits_ge (L : LongSize) : 2 ^ 32 ≤ 2 ^ L.bits :=
  Nat.pow_le_pow_right (by omega) L.bits_ge

lemma addMod_of_lt {w a b : ℕ} (h : a + b < 2 ^ w) : addMod w a b = a + b := Nat.mod_eq_of_lt h

lemma subMod_of_le {w a b : ℕ} (hba : b ≤ a) (ha : a < 2 ^ w) : subMod w a b = a - b := by
  unfold subMod
  rw [show a + 2 ^ w - b = a - b + 2 ^ w by omega, Nat.add_mod_right]
  exact Nat.mod_eq_of_lt (by omega)

end LinuxKernel
