import LinuxKernel.RoundJiffies

/-!
# Rounded jiffies are near and in the future

The skew cancels, so the rounded value is less than a quarter of a second back or at most a second
on. A value rounded back past `jiffies` is dropped, except when it has passed 0 on the way: in the
first quarter of a second after the counter has wrapped.
-/

namespace LinuxKernel.Timer

variable {L : LongSize} {HZ : Hz} {jiffies j : BitVec L.bits}

section

variable (HZ : Hz) (jiffies j : BitVec L.bits) (cpu : ℕ) (forceUp : Bool)

lemma roundJiffiesCommon_cases :
    roundJiffiesCommon HZ jiffies j cpu forceUp = j ∨ (forceUp = false ∧ ∃ back < HZ.hz / 4,
        roundJiffiesCommon HZ jiffies j cpu forceUp = j - BitVec.ofNat _ back ∧
        jiffies.toNat < (j - BitVec.ofNat L.bits back).toNat) ∨ ∃ on, on ≤ HZ.hz ∧
        roundJiffiesCommon HZ jiffies j cpu forceUp = j + BitVec.ofNat _ on := by
  simp only [roundJiffiesCommon]
  set skew := BitVec.ofNat L.bits (cpu * 3) with hskew
  set rem := (j + skew).toNat % HZ.hz with hrem
  have hlt : rem < HZ.hz := Nat.mod_lt _ (by have := HZ.ge; omega)
  have hback : j + skew - BitVec.ofNat _ rem - skew = j - BitVec.ofNat _ rem := by ring
  have hon : j + skew - BitVec.ofNat _ rem + BitVec.ofNat _ HZ.hz - skew
      = j + BitVec.ofNat _ (HZ.hz - rem) := by
    rw [show BitVec.ofNat L.bits HZ.hz
      = BitVec.ofNat L.bits (HZ.hz - rem) + BitVec.ofNat L.bits rem by
        rw [← BitVec.ofNat_add, Nat.sub_add_cancel hlt.le]]
    ring
  split_ifs with hquarter hle hle
  · exact .inl rfl
  · rw [hback] at hle ⊢
    exact .inr (.inl ⟨by simpa using hquarter.2, rem, hquarter.1, rfl, not_le.mp hle⟩)
  · exact .inl rfl
  · rw [hon]
    exact .inr (.inr ⟨HZ.hz - rem, Nat.sub_le _ _, rfl⟩)

end

lemma timeAfter_iff {a b : BitVec L.bits} : timeAfter a b ↔ 2 ^ L.bits ≤ 2 * (b - a).toNat := by
  rw [timeAfter, BitVec.toInt_neg_iff]

lemma timeAfter_add {on : ℕ} (hon : on ≤ HZ.hz) (hafter : timeAfter j jiffies)
    (hnear : (j - jiffies).toNat < 2 ^ (L.bits - 2)) :
    timeAfter (j + BitVec.ofNat _ on) jiffies := by
  have hHZ := HZ.lt
  have hj := j.isLt
  have hjiffies := jiffies.isLt
  rw [timeAfter_iff] at hafter ⊢
  simp only [BitVec.toNat_sub, BitVec.toNat_add, BitVec.toNat_ofNat] at *
  cases L <;> simp only [LongSize.bits] at * <;> omega

lemma timeAfter_sub {back : ℕ} (hback : back < HZ.hz / 4) (hafter : timeAfter j jiffies)
    (hnear : (j - jiffies).toNat < 2 ^ (L.bits - 2))
    (hnum : jiffies.toNat < (j - BitVec.ofNat L.bits back).toNat)
    (hwrap : HZ.hz / 4 ≤ jiffies.toNat + 2) :
    timeAfter (j - BitVec.ofNat _ back) jiffies := by
  have hHZ := HZ.lt
  have hj := j.isLt
  have hjiffies := jiffies.isLt
  rw [timeAfter_iff] at hafter ⊢
  simp only [BitVec.toNat_sub, BitVec.toNat_ofNat] at *
  cases L <;> simp only [LongSize.bits] at * <;> omega

lemma toNat_add_sub_le (on : ℕ) : (j + BitVec.ofNat L.bits on - j).toNat ≤ on := by
  rw [show j + BitVec.ofNat L.bits on - j = BitVec.ofNat L.bits on by ring, BitVec.toNat_ofNat]
  exact Nat.mod_le _ _

lemma toNat_sub_sub_le (back : ℕ) : (j - (j - BitVec.ofNat L.bits back)).toNat ≤ back := by
  rw [show j - (j - BitVec.ofNat L.bits back) = BitVec.ofNat L.bits back by ring,
    BitVec.toNat_ofNat]
  exact Nat.mod_le _ _

lemma not_timeBefore_add {on : ℕ} (hon : on ≤ HZ.hz) :
    ¬ timeBefore (j + BitVec.ofNat _ on) j := by
  have hHZ := HZ.lt
  have hle := toNat_add_sub_le (j := j) on
  rw [timeBefore, timeAfter_iff, not_le]
  cases L <;> simp only [LongSize.bits] at * <;> omega

def hz1000 : Hz := ⟨1000, by decide, by decide⟩

end LinuxKernel.Timer
