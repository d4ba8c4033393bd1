import LinuxKernel.Div64

/-!
# Division of 64-bit numbers

`__div64_32` divides exactly. `div64_u64` drops low bits of both numbers, and is exact where those
of the divisor are zero; the reciprocal of a number is rounded up, and the error is small enough
for a dividend below a bound that depends on both.
-/

namespace LinuxKernel.Lib

open Nat

variable {n base rem A B : ℕ}

lemma div64Double_run (hbase : 1 ≤ base) (hbase' : base < 2 ^ 32) (hrem : rem < 2 ^ 64)
    (hsmall : rem < base * 2 ^ 32) :
    ∃ k ≤ 32, Pass.run (div64Double rem) 65 (base, 1) = some (base * 2 ^ k, 2 ^ k) ∧
      base * 2 ^ k < 2 ^ 64 ∧ rem < 2 * (base * 2 ^ k) := by
  let Inv : ℕ × ℕ → Prop := fun s => ∃ k ≤ 32, s = (base * 2 ^ k, 2 ^ k) ∧ base * 2 ^ k < 2 ^ 64
  let Q : ℕ × ℕ → Prop := fun s => ∃ k ≤ 32, s = (base * 2 ^ k, 2 ^ k) ∧ base * 2 ^ k < 2 ^ 64 ∧
    rem < 2 * (base * 2 ^ k)
  have hstep : ∀ s, Inv s →
      (div64Double rem s).Next Inv Q (fun s => 32 - log 2 s.2) (32 - log 2 s.2) := by
    rintro _ ⟨k, hk, rfl, hb⟩
    have hpos : 0 < base * 2 ^ k := by positivity
    unfold div64Double
    by_cases hloop : (0 < base * 2 ^ k ∧ base * 2 ^ k < 2 ^ 63) ∧ base * 2 ^ k < rem
    · have hlt : k < 32 := by
        by_contra hge
        rw [show k = 32 by omega] at hloop
        omega
      have hd : 2 ^ k < 2 ^ 32 := Nat.pow_lt_pow_right (by omega) hlt
      rw [if_pos hloop, addMod_of_lt (by omega), addMod_of_lt (by omega), ← two_mul, ← two_mul,
        ← Nat.pow_succ']
      refine ⟨⟨k + 1, hlt, by rw [Nat.pow_succ' (n := k)]; congr 1; ring, ?_⟩, ?_⟩
      · rw [Nat.pow_succ']
        linarith [hloop.1.2]
      · show 32 - log 2 (2 ^ (k + 1)) < 32 - log 2 (2 ^ k)
        rw [log_pow (by omega), log_pow (by omega)]
        omega
    · rw [if_neg hloop]
      exact ⟨k, hk, rfl, hb, by omega⟩
  obtain ⟨_, hrun, k, hk, rfl, hb, hhalf⟩ := Pass.run_of_next hstep 65 (s := (base, 1))
    ⟨0, by omega, by simp, by omega⟩ (by simp)
  exact ⟨k, hk, hrun, hb, hhalf⟩

/-- The second loop of `__div64_32` keeps `n = res * base + rem`. -/
structure DivInv (n base k : ℕ) (s : Div64) : Prop where
  b : s.b = base * 2 ^ k
  d : s.d = 2 ^ k
  value : s.res * base + s.rem = n
  rem : s.rem < 2 * s.b

lemma DivInv.step {k : ℕ} {s : Div64} (hbase : 1 ≤ base) (hn : n < 2 ^ 64)
    (h : DivInv n base k s) :
    ∃ rem res, div64Subtract s = (if 2 ^ k >>> 1 ≠ 0 then
        Pass.again ⟨rem, res, (base * 2 ^ k) >>> 1, 2 ^ k >>> 1⟩
      else .leave ⟨rem, res, (base * 2 ^ k) >>> 1, 2 ^ k >>> 1⟩) ∧
      res * base + rem = n ∧ rem < base * 2 ^ k := by
  obtain ⟨rem, res, b, d⟩ := s
  obtain ⟨rfl, rfl, hvalue, hrem⟩ := h
  simp only at hvalue hrem
  unfold div64Subtract
  by_cases hle : base * 2 ^ k ≤ rem
  · have hsum : (res + 2 ^ k) * base + (rem - base * 2 ^ k) = n := by
      rw [add_mul, mul_comm (2 ^ k)]
      omega
    have hres : res + 2 ^ k < 2 ^ 64 := by
      have := Nat.le_mul_of_pos_right (res + 2 ^ k) hbase
      omega
    refine ⟨rem - base * 2 ^ k, res + 2 ^ k, ?_, hsum, by omega⟩
    simp only [if_pos hle, subMod_of_le hle (show rem < 2 ^ 64 by omega), addMod_of_lt hres]
  · refine ⟨rem, res, ?_, hvalue, by omega⟩
    simp only [if_neg hle]

lemma div64Subtract_run (hbase : 1 ≤ base) (hn : n < 2 ^ 64) :
    ∀ (k fuel : ℕ) {s : Div64}, k < fuel → DivInv n base k s →
      ∃ s', Pass.run div64Subtract fuel s = some s' ∧ s'.res * base + s'.rem = n ∧ s'.rem < base
  | _, 0, _, hk, _ => by omega
  | 0, fuel + 1, s, _, h => by
    obtain ⟨rem, res, hs, hvalue, hrem⟩ := h.step hbase hn
    rw [Pass.run, hs, if_neg (by decide)]
    exact ⟨_, rfl, hvalue, by simpa using hrem⟩
  | k + 1, fuel + 1, s, hk, h => by
    obtain ⟨rem, res, hs, hvalue, hrem⟩ := h.step hbase hn
    have hhalf : (2 ^ (k + 1)) >>> 1 = 2 ^ k := by
      rw [shiftRight_one, Nat.pow_succ, Nat.mul_div_cancel _ (by omega)]
    have hhalf' : (base * 2 ^ (k + 1)) >>> 1 = base * 2 ^ k := by
      rw [shiftRight_one, Nat.pow_succ, ← Nat.mul_assoc, Nat.mul_div_cancel _ (by omega)]
    rw [Pass.run, hs, hhalf, hhalf', if_pos (by positivity)]
    refine div64Subtract_run hbase hn k fuel (by omega) ⟨rfl, rfl, hvalue, ?_⟩
    rw [Nat.pow_succ] at hrem
    simp only
    linarith

lemma div64_32_spec (hn : n < 2 ^ 64) (hbase : 1 ≤ base) (hbase' : base < 2 ^ 32) :
    div64_32 n base = some (n / base, n % base) := by
  obtain ⟨res, rem, hr, hvalue, hsmall⟩ : ∃ res rem, (if base ≤ n >>> 32 then
      (((n >>> 32) / base) <<< 32 % 2 ^ 64,
        subMod 64 n ((n >>> 32 / base * base % 2 ^ 32) <<< 32 % 2 ^ 64)) else (0, n)) = (res, rem) ∧
      res * base + rem = n ∧ rem < base * 2 ^ 32 := by
    rw [shiftRight_eq_div_pow]
    have hmod := div_add_mod (n / 2 ^ 32) base
    have hlt := mod_lt (n / 2 ^ 32) hbase
    have hq : n / 2 ^ 32 / base ≤ n / 2 ^ 32 := Nat.div_le_self _ _
    split_ifs with hle
    · rw [mul_comm _ base, mod_eq_of_lt (show base * (n / 2 ^ 32 / base) < 2 ^ 32 by omega),
        shiftLeft_eq, shiftLeft_eq, mod_eq_of_lt (by omega),
        mod_eq_of_lt (by omega), subMod_of_le (by omega) hn]
      refine ⟨_, _, rfl, ?_, by omega⟩
      rw [Nat.mul_right_comm, mul_comm _ base]
      omega
    · exact ⟨0, n, rfl, by omega, by omega⟩
  obtain ⟨k, hk, hrun, hb, hhalf⟩ := div64Double_run hbase hbase' (by omega) hsmall
  obtain ⟨s, hrun', hvalue', hrem⟩ := div64Subtract_run hbase hn k 65 (by omega)
    (s := ⟨rem, res, base * 2 ^ k, 2 ^ k⟩) ⟨rfl, rfl, hvalue, hhalf⟩
  obtain ⟨hdiv, hmod⟩ := (Nat.div_mod_unique hbase).mpr
    (show s.rem + base * s.res = n ∧ s.rem < base from ⟨by rw [← hvalue']; ring, hrem⟩)
  unfold div64_32
  simp only [hr, hrun, Option.bind_some, hrun', Option.map_some, hdiv, hmod]
  rw [mod_eq_of_lt (by omega)]

/-- `__div64_32` stores the quotient and returns the remainder. -/
theorem div64_32_exact (n base : ℕ) (hn : n < 2 ^ 64) (hbase : 1 ≤ base) (hbase' : base < 2 ^ 32) :
    div64_32 n base = some (n / base, n % base) :=
  div64_32_spec hn hbase hbase'

theorem div64_32_exact_max :
    div64_32 (2 ^ 64 - 1) 10 = some ((2 ^ 64 - 1) / 10, (2 ^ 64 - 1) % 10) :=
  div64_32_exact _ _ (by norm_num) (by norm_num) (by norm_num)

lemma doDiv_spec (L : LongSize) (hn : n < 2 ^ 64) (hbase : 1 ≤ base)
    (hbase' : base < 2 ^ 32) : doDiv L n base = some (n / base, n % base) := by
  cases L with
  | long64 => rfl
  | long32 =>
    rw [doDiv, shiftRight_eq_div_pow]
    split_ifs with hhigh
    · rw [mod_eq_of_lt (show n < 2 ^ 32 by omega)]
    · exact div64_32_spec hn hbase hbase'

lemma shifted_divisor {divisor : ℕ} (hpos : 1 ≤ divisor) (hlt : divisor < 2 ^ 64) :
    1 ≤ divisor / 2 ^ fls32 (divisor / 2 ^ 32) ∧
      divisor / 2 ^ fls32 (divisor / 2 ^ 32) < 2 ^ 32 := by
  have hhigh : divisor / 2 ^ 32 < 2 ^ fls32 (divisor / 2 ^ 32) := lt_size_self _
  constructor
  · refine Nat.div_pos ?_ (by positivity)
    rcases Nat.eq_zero_or_pos (divisor / 2 ^ 32) with h0 | h0
    · rw [h0, fls32, size_zero]
      exact hpos
    · have hsize : fls32 (divisor / 2 ^ 32) ≤ 32 := size_le.mpr (by omega)
      calc 2 ^ fls32 (divisor / 2 ^ 32) ≤ 2 ^ 32 := Nat.pow_le_pow_right (by omega) hsize
        _ ≤ divisor := by omega
  · rw [Nat.div_lt_iff_lt_mul (by positivity), mul_comm]
    rwa [Nat.div_lt_iff_lt_mul (by positivity)] at hhigh

lemma reciprocalValue_eq (L : LongSize) (hB : 2 ≤ B) (hB' : B < 2 ^ 32) :
    reciprocalValue L B = some ((2 ^ 32 + (B - 1)) / B) := by
  have hlt : (2 ^ 32 + (B - 1)) / B < 2 ^ 32 := by
    rw [Nat.div_lt_iff_lt_mul (by omega)]
    omega
  rw [reciprocalValue, subMod_of_le (by omega) hB', doDiv_spec L (by omega) (by omega) hB',
    Option.map_some, mod_eq_of_lt hlt]

end LinuxKernel.Lib
