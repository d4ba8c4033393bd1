import LinuxKernel.IntSqrt

/-!
# The integer square root is exact

With `4 ^ j` still to be shared out, `res` is the root `a` found so far times `4 ^ j`, and `op` is
what `a ^ 2 * 4 ^ j` leaves of `x`.
-/

namespace LinuxKernel.Lib

structure SqrtInv (m x : ℕ) (s : Sqrt) (j a : ℕ) : Prop where
  le : j ≤ m
  one : s.one = 4 ^ j / 4
  res : s.res = a * 4 ^ j
  op : s.op + a ^ 2 * 4 ^ j = x
  lt : x < (a + 1) ^ 2 * 4 ^ j

variable {m x j a : ℕ} {s : Sqrt}

lemma shrinkOne_spec : ∀ j : ℕ, x < 4 ^ j → ∃ i ≤ j, x < 4 ^ i ∧ shrinkOne x (4 ^ j / 4) = 4 ^ i / 4
  | 0, h => ⟨0, le_rfl, h, by rw [shrinkOne, if_neg (by simp)]⟩
  | j + 1, h => by
    rw [shrinkOne]
    split_ifs with hlt
    · rw [pow_succ, Nat.mul_div_cancel _ (by decide)] at hlt ⊢
      obtain ⟨i, hi, hx, heq⟩ := shrinkOne_spec j hlt
      exact ⟨i, by omega, hx, heq⟩
    · exact ⟨j + 1, le_rfl, h, rfl⟩

lemma SqrtInv.room (h : SqrtInv m x s j a) (hx : x < 4 ^ m) : (a + 1) * 4 ^ j ≤ 4 ^ m := by
  obtain ⟨d, rfl⟩ := Nat.exists_eq_add_of_le' h.le
  have hsq : a ^ 2 * 4 ^ j < 4 ^ d * 4 ^ j := by
    have := h.op
    rw [← pow_add]
    omega
  have ha : a < 2 ^ d := lt_of_pow_lt_pow_left₀ 2 (Nat.zero_le _) <| by
    rw [← pow_mul, mul_comm, pow_mul]
    exact Nat.lt_of_mul_lt_mul_right hsq
  rw [pow_add]
  exact Nat.mul_le_mul_right _ (ha.trans_le (Nat.pow_le_pow_left (by decide) d))

lemma SqrtInv.step (h : SqrtInv m x s (j + 1) a) (hx : x < 4 ^ m) :
    s.res + 2 * s.one < 4 ^ m ∧ ∃ b, SqrtInv m x (sqrtStep (2 * m) s) j b := by
  have hone : s.one = 4 ^ j := by rw [h.one, pow_succ, Nat.mul_div_cancel _ (by decide)]
  have hroom := h.room hx
  obtain ⟨hle, -, hres, hop, hlt⟩ := h
  have hpos : 0 < 4 ^ j := Nat.pow_pos (by decide)
  rw [pow_succ 4 j] at hres hop hlt hroom
  have hsum : s.res + 2 * s.one < 4 ^ m := by
    rw [hone, hres]
    linarith
  have hmod : ∀ y, y ≤ s.res + 2 * s.one → y % 2 ^ (2 * m) = y := fun y hy => by
    rw [pow_mul]
    exact Nat.mod_eq_of_lt (hy.trans_lt hsum)
  refine ⟨hsum, ?_⟩
  unfold sqrtStep
  rw [hmod _ (by omega), hmod _ le_rfl, hone, hres]
  split_ifs with hge
  · refine ⟨2 * a + 1, by omega, rfl, ?_, ?_, by linarith⟩
    · refine Nat.div_eq_of_eq_mul_right two_pos ?_
      ring
    · show s.op - _ + _ = x
      zify [hge] at hop ⊢
      linarith
  · refine ⟨2 * a, by omega, congrArg (· / 4) hone, ?_, by linarith, ?_⟩
    · refine Nat.div_eq_of_eq_mul_right two_pos ?_
      linarith
    · linarith

lemma SqrtInv.loop : ∀ {j a : ℕ} {s : Sqrt}, SqrtInv m x s j a → x < 4 ^ m →
    sqrtLoop (2 * m) s ^ 2 ≤ x ∧ x < (sqrtLoop (2 * m) s + 1) ^ 2
  | 0, a, s, h, _ => by
    obtain ⟨-, hone, hres, hop, hlt⟩ := h
    rw [sqrtLoop, dif_pos (show s.one = 0 from hone), hres]
    simp only [pow_zero, mul_one] at hop hlt ⊢
    exact ⟨by omega, hlt⟩
  | j + 1, a, s, h, hx => by
    have hone : s.one ≠ 0 := by
      rw [h.one, pow_succ, Nat.mul_div_cancel _ (by decide)]
      exact (Nat.pow_pos (by decide)).ne'
    obtain ⟨-, b, hb⟩ := h.step hx
    rw [sqrtLoop, dif_neg hone]
    exact hb.loop hx

lemma sqrtStart_inv (hm : 0 < m) (hx : x < 4 ^ m) :
    ∃ j, SqrtInv m x (sqrtStart (2 * m) x) j 0 := by
  obtain ⟨j, hj, hlt, heq⟩ := shrinkOne_spec m hx
  have htop : 2 ^ (2 * m - 2) = 4 ^ m / 4 := by
    obtain ⟨d, rfl⟩ : ∃ d, m = d + 1 := ⟨m - 1, by omega⟩
    rw [pow_succ, Nat.mul_div_cancel _ (by decide), mul_add, mul_one, Nat.add_sub_cancel, pow_mul]
    rfl
  refine ⟨j, hj, ?_, by simp [sqrtStart], by simp [sqrtStart], by simpa using hlt⟩
  rw [sqrtStart, htop, heq]

lemma SqrtReach.inv (hr : SqrtReach (2 * m) x s) (hm : 0 < m) (hx : x < 4 ^ m) :
    ∃ j a, SqrtInv m x s j a := by
  induction hr with
  | start =>
    obtain ⟨j, h⟩ := sqrtStart_inv hm hx
    exact ⟨j, 0, h⟩
  | step _ hone ih =>
    obtain ⟨j, a, h⟩ := ih
    cases j with
    | zero => exact absurd h.one hone
    | succ j => exact ⟨j, (h.step hx).2⟩

/-- No sum in the loop overflows, and the result is the greatest root. -/
theorem intSqrt_greatest {w : ℕ} (hw : Even w) (h0 : 0 < w) (hx : x < 2 ^ w) :
    IsGreatest {r | r * r ≤ x} (intSqrt w x)
      ∧ ∀ s, SqrtReach w x s → s.one ≠ 0 → s.res + s.one < 2 ^ w ∧ s.res + 2 * s.one < 2 ^ w := by
  obtain ⟨m, rfl⟩ := hw.two_dvd
  rw [pow_mul] at hx ⊢
  have hm : 0 < m := by omega
  obtain ⟨j, h⟩ := sqrtStart_inv hm hx
  obtain ⟨hle, hlt⟩ := h.loop hx
  refine ⟨⟨?_, fun r (hr : r * r ≤ x) => ?_⟩, fun s hs hone => ?_⟩
  · show intSqrt (2 * m) x * intSqrt (2 * m) x ≤ x
    rw [← sq]
    exact hle
  · rw [← sq] at hr
    exact Nat.le_of_lt_succ (lt_of_pow_lt_pow_left₀ 2 (Nat.zero_le _) (hr.trans_lt hlt))
  · obtain ⟨j, a, h⟩ := hs.inv hm hx
    cases j with
    | zero => exact absurd h.one hone
    | succ j =>
      have hsum := (h.step hx).1
      exact ⟨lt_of_le_of_lt (by omega) hsum, hsum⟩

theorem intSqrt_greatest_top : IsGreatest {r | r * r ≤ 255} (intSqrt 8 255) :=
  (intSqrt_greatest (by decide) (by decide) (by decide)).1

end LinuxKernel.Lib
