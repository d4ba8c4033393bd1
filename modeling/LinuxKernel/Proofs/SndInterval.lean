import LinuxKernel.SndInterval

/-!
# Refining an interval to the multiples of a step

The ends are rounded to multiples inside the interval. The flags stay as they are, so an open end
that is moved leaves out the multiple it is moved to.
-/

namespace LinuxKernel.Sound

variable {i : SndInterval} {step : BitVec 32}

lemma sndIntervalTest_iff {v : BitVec 32} : sndIntervalTest i v = true ↔
    (i.min ≤ v ∧ (i.openmin = true → i.min ≠ v)) ∧ v ≤ i.max ∧ (i.openmax = true → i.max ≠ v) := by
  obtain ⟨min, max, openmin, openmax, _, _⟩ := i
  cases openmin <;> cases openmax <;> simp [sndIntervalTest, and_assoc]

lemma step_min {min : BitVec 32} (hs : 1 ≤ step.toNat)
    (hroom : ∃ v : BitVec 32, step.toNat ∣ v.toNat ∧ min ≤ v) :
    let lo := if min % step ≠ 0 then min + (step - min % step) else min
    step.toNat ∣ lo.toNat ∧ min ≤ lo
      ∧ ∀ v : BitVec 32, step.toNat ∣ v.toNat → min ≤ v → lo ≤ v := by
  have hle := Nat.mod_le min.toNat step.toNat
  have hmod := Nat.mod_lt min.toNat hs
  simp only [BitVec.le_def] at hroom ⊢
  split_ifs with h0
  · rw [ne_eq, ← BitVec.toNat_inj, BitVec.toNat_umod] at h0
    have hdvd : step.toNat ∣ min.toNat - min.toNat % step.toNat + step.toNat :=
      dvd_add (Nat.dvd_sub_mod _) dvd_rfl
    have hup : ∀ v : BitVec 32, step.toNat ∣ v.toNat → min.toNat ≤ v.toNat →
        min.toNat - min.toNat % step.toNat + step.toNat ≤ v.toNat := fun v hv hmin =>
      Nat.le_of_lt_add_of_dvd (by simp at h0; omega) hdvd hv
    obtain ⟨v, hv, hmin⟩ := hroom
    have hlo : (min + (step - min % step)).toNat
        = min.toNat - min.toNat % step.toNat + step.toNat := by
      have := hup v hv hmin
      have := v.isLt
      rw [BitVec.toNat_add, BitVec.toNat_sub, BitVec.toNat_umod]
      omega
    rw [hlo]
    exact ⟨hdvd, by omega, hup⟩
  · rw [not_not, ← BitVec.toNat_inj, BitVec.toNat_umod] at h0
    exact ⟨Nat.dvd_of_mod_eq_zero h0, le_rfl, fun v _ hv => hv⟩

lemma step_max {max : BitVec 32} (hs : 1 ≤ step.toNat) :
    step.toNat ∣ (max - max % step).toNat ∧ max - max % step ≤ max
      ∧ ∀ v : BitVec 32, step.toNat ∣ v.toNat → v ≤ max → v ≤ max - max % step := by
  have hle := Nat.mod_le max.toNat step.toNat
  have hmod := Nat.mod_lt max.toNat hs
  have hhi : (max - max % step).toNat = max.toNat - max.toNat % step.toNat := by
    rw [BitVec.toNat_sub_of_le (by rwa [BitVec.le_def, BitVec.toNat_umod]), BitVec.toNat_umod]
  simp only [BitVec.le_def, hhi]
  refine ⟨Nat.dvd_sub_mod _, Nat.sub_le _ _, fun v hv hmax => ?_⟩
  exact Nat.le_of_lt_add_of_dvd (by omega) hv (Nat.dvd_sub_mod _)

/-- The interval left by a step, before it is checked. -/
def stepped (i : SndInterval) (step : BitVec 32) : SndInterval :=
  { i with
    min := if i.min % step ≠ 0 then i.min + (step - i.min % step) else i.min
    max := i.max - i.max % step }

lemma sndIntervalStep_eq (hmin : i.openmin = false) :
    ∃ changed : ℤ, changed ≠ -EINVAL ∧ sndIntervalStep i 0 step =
      if sndIntervalCheckempty (stepped i step) then ({ stepped i step with empty := true }, -EINVAL)
      else (stepped i step, changed) := by
  obtain ⟨min, max, _, openmax, integer, empty⟩ := i
  obtain rfl : _ = false := hmin
  refine ⟨if max % step ≠ 0 ∨ openmax then 1 else if min % step ≠ 0 then 1 else 0, ?_, ?_⟩
  · split_ifs <;> decide
  · simp only [sndIntervalStep, stepped, sub_zero, Bool.false_eq_true, or_false]
    by_cases h1 : min % step = 0#32 <;> by_cases h2 : max % step = 0#32 <;> cases openmax <;>
      simp [h1, h2]

end LinuxKernel.Sound
