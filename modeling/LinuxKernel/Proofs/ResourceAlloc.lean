import LinuxKernel.Proofs.Resource

/-!
# Allocating a resource

`find_resource` tests the gaps between the children from left to right. What it accepts fits its
window; what fits a gap is not passed over; and `__request_resource` checks the rest.
-/

namespace LinuxKernel.Resource

open List

variable {w k : ℕ} {root : Resource} {size min max align e s start x : ℕ}

lemma alignUp_eq (hk : k ≤ w) (x : ℕ) :
    alignUp w x (2 ^ k) = addMod w x (2 ^ k - 1) / 2 ^ k * 2 ^ k := by
  have hlt : addMod w x (2 ^ k - 1) < 2 ^ w := Nat.mod_lt _ (by positivity)
  unfold alignUp
  generalize addMod w x (2 ^ k - 1) = y at hlt ⊢
  apply Nat.eq_of_testBit_eq
  intro i
  rw [Nat.testBit_and, Nat.testBit_xor, Nat.testBit_two_pow_sub_one, Nat.testBit_two_pow_sub_one,
    Nat.testBit_mul_two_pow, Nat.testBit_div_two_pow]
  by_cases hik : k ≤ i
  · by_cases hiw : i < w
    · simp [hik, hiw, Nat.not_lt.mpr hik]
    · have : y.testBit i = false :=
        Nat.testBit_lt_two_pow (lt_of_lt_of_le hlt (Nat.pow_le_pow_right (by omega) (by omega)))
      simp [hik, this]
  · simp [hik, show i < k by omega, show i < w by omega]

lemma dvd_alignUp (hk : k ≤ w) (x : ℕ) : 2 ^ k ∣ alignUp w x (2 ^ k) := by
  rw [alignUp_eq hk]
  exact Dvd.intro_left _ rfl

lemma le_alignUp (hk : k ≤ w) (hx : x + 2 ^ k ≤ 2 ^ w) : x ≤ alignUp w x (2 ^ k) := by
  have hpos : 0 < 2 ^ k := by positivity
  rw [alignUp_eq hk, addMod_of_lt (by omega)]
  have hmod := Nat.div_add_mod (x + (2 ^ k - 1)) (2 ^ k)
  rw [mul_comm] at hmod
  omega

lemma add_le_of_dvd (hk : k ≤ w) (hx : x < 2 ^ w) (hdvd : 2 ^ k ∣ x) :
    x + 2 ^ k ≤ 2 ^ w := by
  have hroom : 2 ^ k ≤ 2 ^ w - x := Nat.le_of_dvd (by omega) (Nat.dvd_sub (pow_dvd_pow 2 hk) hdvd)
  omega

lemma alignUp_le (hk : k ≤ w) {y : ℕ} (hxy : x ≤ y) (hy : y < 2 ^ w) (hdvd : 2 ^ k ∣ y) :
    alignUp w x (2 ^ k) ≤ y := by
  have hpos : 0 < 2 ^ k := by positivity
  have hroom := add_le_of_dvd hk hy hdvd
  obtain ⟨m, rfl⟩ := hdvd
  rw [alignUp_eq hk, addMod_of_lt (by omega), mul_comm]
  apply Nat.mul_le_mul_left
  have : x + (2 ^ k - 1) < 2 ^ k * (m + 1) := by
    rw [mul_add]
    omega
  have := Nat.div_lt_of_lt_mul this
  omega

lemma windowStop_le (root : Resource) (max : ℕ) (this : List Resource) :
    windowStop w root max this ≤ max := by
  simp only [windowStop]
  split_ifs <;> omega

lemma subMod_one {a : ℕ} (ha : 1 ≤ a) (hw : a < 2 ^ w) : subMod w a 1 = a - 1 :=
  subMod_of_le ha hw

lemma window_fits {this : ℕ} (hsize : 1 ≤ size) (hsw : size < 2 ^ w) (hthis : this < 2 ^ w)
    (h : start < this ∧ this - start ≥ subMod w size 1) :
    subMod w (addMod w start size) 1 = start + (size - 1) ∧ start + (size - 1) ≤ this := by
  rw [subMod_one hsize hsw] at h
  exact ⟨rangeStop hsize (by omega), by omega⟩

lemma findLoop_some (hsize : 1 ≤ size) (hsw : size < 2 ^ w) (hmax : max < 2 ^ w) :
    ∀ {this : List Resource} {start : ℕ},
      findLoop w root size min max align none start this = some (s, e) →
      (∃ t ∈ start :: this.map fun c => addMod w c.stop 1, s = windowStart w min align t) ∧
        e = s + (size - 1) ∧ e ≤ max
  | this, start, h => by
    rw [findLoop.eq_def] at h
    simp only at h
    split_ifs at h with htest
    · have hle := windowStop_le (w := w) root max this
      have hfit := window_fits hsize hsw (lt_of_le_of_lt hle hmax) htest
      simp only [Option.some.injEq, Prod.mk.injEq] at h
      obtain ⟨rfl, rfl⟩ := h
      exact ⟨⟨start, by simp, rfl⟩, hfit.1, by omega⟩
    · cases this with
      | nil => cases h
      | cons c rest =>
        obtain ⟨⟨t, ht, hs⟩, hrest⟩ := findLoop_some hsize hsw hmax h
        exact ⟨⟨t, by simpa using .inr (by simpa using ht), hs⟩, hrest⟩

def gapStarts (w : ℕ) (root : Resource) : List ℕ :=
  root.start :: root.children.map fun c => addMod w c.stop 1

lemma findResource_some (hsize : 1 ≤ size) (hsw : size < 2 ^ w)
    (hmax : max < 2 ^ w) (h : findResource w root size min max align none = some (s, e)) :
    (∃ t ∈ gapStarts w root, s = windowStart w min align t) ∧ e = s + (size - 1) ∧ e ≤ max := by
  unfold findResource at h
  unfold gapStarts
  split at h
  · next hcs =>
    rw [hcs]
    exact findLoop_some hsize hsw hmax h
  next c rest hcs =>
  rw [hcs]
  split_ifs at h with hzero
  · obtain ⟨⟨t, ht, hs⟩, hrest⟩ := findLoop_some hsize hsw hmax h
    exact ⟨⟨t, mem_cons_of_mem _ ht, hs⟩, hrest⟩
  · exact findLoop_some hsize hsw hmax h

lemma window_accepts {stop : ℕ} (hk : k ≤ w) (hsize : 2 ≤ size) (hsw : size < 2 ^ w)
    (hx : x < 2 ^ w) (hdvd : 2 ^ k ∣ x) (hmin : min ≤ x) (hstart : start ≤ x)
    (hstop : x + (size - 1) ≤ stop) :
    windowStart w min (2 ^ k) start < stop ∧
      stop - windowStart w min (2 ^ k) start ≥ subMod w size 1 := by
  have hle : windowStart w min (2 ^ k) start ≤ x := by
    unfold windowStart
    exact alignUp_le hk (by split_ifs <;> omega) hx hdvd
  rw [subMod_one (by omega) hsw]
  omega

lemma le_windowStart (hk : k ≤ w) (hx : x < 2 ^ w) (hdvd : 2 ^ k ∣ x)
    (hmin : min ≤ x) (hstart : start ≤ x) : start ≤ windowStart w min (2 ^ k) start := by
  have hroom := add_le_of_dvd hk hx hdvd
  unfold windowStart
  refine le_trans ?_ (le_alignUp hk ?_) <;> split_ifs <;> omega

/-- The search reaches a usable range: it stops at its gap or at an earlier one that is long enough,
and what it returns meets no child. -/
lemma findLoop_complete (hk : k ≤ w) (hsize : 2 ≤ size) (hsw : size < 2 ^ w)
    (hroot : root.stop < 2 ^ w) (hmaxw : max < 2 ^ w) (hx : x < 2 ^ w) (hdvd : 2 ^ k ∣ x)
    (hmin : min ≤ x) (hmax : x + (size - 1) ≤ max) (hxroot : x + (size - 1) ≤ root.stop) :
    ∀ {this : List Resource} {start : ℕ}, (∀ c ∈ this, 1 ≤ c.start ∧ c.start ≤ c.stop ∧
        c.stop ≤ root.stop ∧ start ≤ c.start) → this.Pairwise (fun a b => a.stop < b.start) →
      (∀ c ∈ this, c.stop < x ∨ x + (size - 1) < c.start) → start ≤ x →
      ∃ s e, findLoop w root size min max (2 ^ k) none start this = some (s, e) ∧ start ≤ s ∧
        s ≤ e ∧ e ≤ root.stop ∧ ∀ c ∈ this, c.stop < s ∨ e < c.start
  | [], start, _, _, _, hstart => by
    have hstop : x + (size - 1) ≤ windowStop w root max [] := by
      simp only [windowStop]
      split_ifs <;> omega
    have htest := window_accepts hk hsize hsw hx hdvd hmin hstart hstop
    have hle := windowStop_le (w := w) root max []
    have hfit := window_fits (by omega) hsw (by omega) htest
    have hend : windowStop w root max [] ≤ root.stop := by
      simp only [windowStop]
      split_ifs <;> omega
    rw [findLoop.eq_def]
    simp only [if_pos htest]
    exact ⟨_, _, rfl, le_windowStart hk hx hdvd hmin hstart, by omega, by omega, by simp⟩
  | c :: rest, start, hcs, hasc, hapart, hstart => by
    obtain ⟨hhead, hasc⟩ := pairwise_cons.mp hasc
    have hc := hcs c (by simp)
    have hpred : subMod w c.start 1 = c.start - 1 := subMod_one hc.1 (by omega)
    have hend : windowStop w root max (c :: rest) ≤ c.start - 1 := by
      simp only [windowStop, hpred]
      split_ifs <;> omega
    rw [findLoop.eq_def]
    simp only
    split_ifs with htest
    · have hfit := window_fits (by omega) hsw (by omega) htest
      refine ⟨_, _, rfl, le_windowStart hk hx hdvd hmin hstart, by omega, by omega, ?_⟩
      intro d hd
      right
      rcases mem_cons.mp hd with rfl | hd
      · omega
      · have := hhead d hd
        omega
    have hpast : c.stop < x := by
      rcases hapart c (by simp) with h | h
      · exact h
      · refine absurd (window_accepts hk hsize hsw hx hdvd hmin hstart ?_) htest
        simp only [windowStop, hpred]
        split_ifs <;> omega
    have hnext : addMod w c.stop 1 = c.stop + 1 := addMod_of_lt (by omega)
    have hrest : ∀ d ∈ rest, 1 ≤ d.start ∧ d.start ≤ d.stop ∧ d.stop ≤ root.stop ∧
        addMod w c.stop 1 ≤ d.start := by
      intro d hd
      have h₁ := hcs d (mem_cons_of_mem _ hd)
      have h₂ := hhead d hd
      exact ⟨h₁.1, h₁.2.1, h₁.2.2.1, by omega⟩
    obtain ⟨s, e, hrun, hs, hse, he, hd⟩ := findLoop_complete hk hsize hsw hroot hmaxw hx hdvd
      hmin hmax hxroot hrest hasc (fun d hd => hapart d (mem_cons_of_mem _ hd)) (by omega)
    refine ⟨s, e, hrun, by omega, hse, he, ?_⟩
    intro d hd'
    rcases mem_cons.mp hd' with rfl | hd'
    · left
      omega
    · exact hd d hd'

lemma allocateResource_ok {alignf : Option (ℕ → ℕ → ℕ → ℕ → ℕ)}
    {new root' : Resource}
    (h : allocateResource w root size min max align alignf = .ok (new, root')) :
    findResource w root size min max align alignf = some (new.start, new.stop) ∧
      requestResource root new = .ok root' := by
  unfold allocateResource at h
  split at h
  · cases h
  next start stop hfind =>
  split at h
  · next r hreq =>
    cases h
    exact ⟨hfind, hreq⟩
  · cases h

end LinuxKernel.Resource
