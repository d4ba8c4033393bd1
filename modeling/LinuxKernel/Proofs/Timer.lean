import LinuxKernel.Timer

/-!
# Timers run in the jiffy they expire in

Jiffies are counted without wrapping round, `now` being the one that is processed next. A timer on
level `k` waits for the next visit of its list, which is not later than the timer is due and moves
it to a list visited later or to the root vector.
-/

namespace LinuxKernel.Timer

open Function List

variable {c : Config} {α : Type*} {k M i V N D : ℕ} {ι : Type*}

lemma Config.shift_succ (c : Config) (k : ℕ) : c.shift (k + 1) = c.shift k + c.tvnBits := by
  unfold Config.shift
  ring

lemma Config.shift_zero (c : Config) : c.shift 0 = c.tvrBits := by simp [Config.shift]

lemma Config.shift_four (c : Config) : c.shift 4 ≤ 32 := by
  unfold Config.shift Config.tvrBits Config.tvnBits
  split <;> norm_num

lemma Config.shift_three (c : Config) : c.shift 3 ≤ 31 := by
  unfold Config.shift Config.tvrBits Config.tvnBits
  split <;> norm_num

lemma Config.shift_mono (c : Config) {j : ℕ} (h : j ≤ k) : c.shift j ≤ c.shift k :=
  Nat.add_le_add_left (Nat.mul_le_mul_right _ h) _

lemma Config.two_pow_bits (c : Config) : 2 ^ c.long.bits = 2 * 2 ^ (c.long.bits - 1) := by
  have := c.long.bits_pos
  rw [← pow_succ']
  congr 1
  omega

lemma levelIndex_ofNat (hk : k < 4) (D : ℕ) :
    levelIndex (c := c) k (BitVec.ofNat _ D) = D / 2 ^ c.shift k % 2 ^ c.tvnBits := by
  have hle : c.shift k + c.tvnBits ≤ c.long.bits := by
    rw [← c.shift_succ]
    exact (c.shift_mono hk).trans (c.shift_four.trans c.long.bits_ge)
  obtain ⟨m, hm⟩ := Nat.exists_eq_add_of_le hle
  rw [levelIndex, BitVec.toNat_ofNat, hm, pow_add, pow_add, mul_assoc, Nat.mod_mul_right_div_self,
    Nat.mod_mul_right_mod]

lemma rootIndex_ofNat (D : ℕ) : rootIndex (c := c) (BitVec.ofNat _ D) = D % 2 ^ c.tvrBits := by
  have hle : c.tvrBits ≤ c.long.bits := by
    rw [← c.shift_zero]
    exact (c.shift_mono (by omega)).trans (c.shift_four.trans c.long.bits_ge)
  obtain ⟨m, hm⟩ := Nat.exists_eq_add_of_le hle
  rw [rootIndex, BitVec.toNat_ofNat, hm, pow_add, Nat.mod_mul_right_mod]

/-- `V` is the first time from `M` on at which the list `i` of level `k` is cascaded. -/
structure Visit (c : Config) (k M i V : ℕ) : Prop where
  ge : M ≤ V
  lt : V < M + 2 ^ c.shift (k + 1)
  index : V % 2 ^ c.shift (k + 1) = i * 2 ^ c.shift k

lemma exists_visit (k M : ℕ) (hi : i < 2 ^ c.tvnBits) : ∃ V, Visit c k M i V := by
  have hpos : 0 < 2 ^ c.shift (k + 1) := Nat.two_pow_pos _
  have hdm := Nat.div_add_mod M (2 ^ c.shift (k + 1))
  have hlt : i * 2 ^ c.shift k < 2 ^ c.shift (k + 1) := by
    rw [c.shift_succ, pow_add, mul_comm (2 ^ c.shift k)]
    exact Nat.mul_lt_mul_of_pos_right hi (Nat.two_pow_pos _)
  have hmul := Nat.mul_succ (2 ^ c.shift (k + 1)) (M / 2 ^ c.shift (k + 1))
  by_cases hle : M % 2 ^ c.shift (k + 1) ≤ i * 2 ^ c.shift k
  · refine ⟨2 ^ c.shift (k + 1) * (M / 2 ^ c.shift (k + 1)) + i * 2 ^ c.shift k,
      by omega, by omega, ?_⟩
    rw [Nat.mul_add_mod, Nat.mod_eq_of_lt hlt]
  · refine ⟨2 ^ c.shift (k + 1) * (M / 2 ^ c.shift (k + 1)).succ + i * 2 ^ c.shift k, by omega,
      by omega, ?_⟩
    rw [Nat.mul_add_mod, Nat.mod_eq_of_lt hlt]

lemma Visit.dvd (h : Visit c k M i V) : 2 ^ c.shift k ∣ V := by
  have hd : 2 ^ c.shift k ∣ 2 ^ c.shift (k + 1) := pow_dvd_pow 2 (c.shift_mono (by omega))
  exact (Nat.dvd_mod_iff hd).mp (h.index ▸ Nat.dvd_mul_left _ _)

lemma visit_floor (hM : M ≤ D / 2 ^ c.shift k * 2 ^ c.shift k)
    (hD : D < M + 2 ^ c.shift (k + 1)) :
    Visit c k M (D / 2 ^ c.shift k % 2 ^ c.tvnBits) (D / 2 ^ c.shift k * 2 ^ c.shift k) where
  ge := hM
  lt := (Nat.div_mul_le_self _ _).trans_lt hD
  index := by rw [c.shift_succ, pow_add, mul_comm (2 ^ c.shift k), Nat.mul_mod_mul_right]

lemma Visit.later (h : Visit c k N i V) (hne : V ≠ N) : Visit c k (N + 1) i V where
  ge := by
    have := h.ge
    omega
  lt := by
    have := h.lt
    omega
  index := h.index

lemma ofNat_sub_ofNat {w : ℕ} (hle : N ≤ D) (hlt : D < N + 2 ^ w) :
    (BitVec.ofNat w D - BitVec.ofNat w N).toNat = D - N := by
  obtain ⟨d, rfl⟩ := Nat.exists_eq_add_of_le hle
  rw [BitVec.ofNat_add, add_sub_cancel_left, BitVec.toNat_ofNat, Nat.mod_eq_of_lt (by omega),
    Nat.add_sub_cancel_left]

lemma levelIndex_lt (k : ℕ) (x : c.Ulong) : levelIndex k x < 2 ^ c.tvnBits :=
  Nat.mod_lt _ (Nat.two_pow_pos _)

/-- Where a timer due at `D` may stand when `now` is `N`; the lists of level `k` are those visited
from `M k` on. -/
def Slot.Fits (c : Config) (N : ℕ) (M : ℕ → ℕ) (D : ℕ) : Slot → Prop
  | .root i => i = D % 2 ^ c.tvrBits ∧ D < N + 2 ^ c.tvrBits
  | .level k i => k < 4 ∧ i < 2 ^ c.tvnBits ∧ ∃ V, Visit c k (M k) i V ∧ V ≤ D

variable {M : ℕ → ℕ}

lemma fits_level (hk : k < 4) (hM : M k = N ∨ M k = N + 1)
    (hge : N + 2 ^ c.shift k ≤ D) (hlt : D < N + 2 ^ c.shift (k + 1)) :
    (Slot.level k (levelIndex (c := c) k (BitVec.ofNat _ D))).Fits c N M D := by
  have hpos : 0 < 2 ^ c.shift k := Nat.two_pow_pos _
  have hfloor := Nat.div_add_mod D (2 ^ c.shift k)
  rw [mul_comm] at hfloor
  refine ⟨hk, levelIndex_lt _ _, D / 2 ^ c.shift k * 2 ^ c.shift k, ?_, by omega⟩
  rw [levelIndex_ofNat hk]
  exact visit_floor (by omega) (by omega)

lemma fits_last (hM : M 3 = N ∨ M 3 = N + 1) (hge : N + 2 ^ c.shift 4 ≤ D) (x : c.Ulong) :
    (Slot.level 3 (levelIndex 3 x)).Fits c N M D := by
  obtain ⟨V, hV⟩ := exists_visit (c := c) 3 (M 3) (levelIndex_lt 3 x)
  have hlt : V < M 3 + 2 ^ c.shift 4 := hV.lt
  exact ⟨by omega, levelIndex_lt _ _, V, hV, by omega⟩

lemma slotFor_fits (hM : ∀ k, M k = N ∨ M k = N + 1) (hle : N ≤ D)
    (hlt : D < N + 2 ^ (c.long.bits - 1)) :
    (slotFor (c := c) (BitVec.ofNat _ N) (BitVec.ofNat _ D)).Fits c N M D := by
  have hw := c.two_pow_bits
  have hidx := ofNat_sub_ofNat (w := c.long.bits) hle (by omega)
  have hint : ¬ (BitVec.ofNat c.long.bits D - BitVec.ofNat c.long.bits N).toInt < 0 := by
    rw [BitVec.toInt_eq_toNat_of_lt (by omega)]
    omega
  have hspan : ∀ {s : ℕ}, D - N < s ↔ D < N + s := Nat.sub_lt_iff_lt_add' hle
  unfold slotFor
  simp only [hidx, if_neg hint]
  by_cases h0 : D - N < 2 ^ c.tvrBits
  · rw [if_pos h0, rootIndex_ofNat]
    exact ⟨rfl, by omega⟩
  rw [if_neg h0]
  by_cases h1 : D - N < 2 ^ c.shift 1
  · rw [if_pos h1]
    exact fits_level (by omega) (hM 0) (by rw [c.shift_zero]; omega) (hspan.mp h1)
  rw [if_neg h1]
  by_cases h2 : D - N < 2 ^ c.shift 2
  · rw [if_pos h2]
    exact fits_level (by omega) (hM 1) (by omega) (hspan.mp h2)
  rw [if_neg h2]
  by_cases h3 : D - N < 2 ^ c.shift 3
  · rw [if_pos h3]
    exact fits_level (by omega) (hM 2) (by omega) (hspan.mp h3)
  rw [if_neg h3]
  by_cases h4 : D - N < 2 ^ c.shift 4
  · have hcap : 2 ^ c.shift 4 ≤ 2 ^ 32 := Nat.pow_le_pow_right (by norm_num) c.shift_four
    rw [if_neg (by omega)]
    exact fits_level (by omega) (hM 3) (by omega) (hspan.mp h4)
  · exact fits_last (hM 3) (by omega) _

lemma slotFor_past {timerJiffies expires : c.Ulong} (h : (expires - timerJiffies).toInt < 0) :
    slotFor timerJiffies expires = .root (rootIndex timerJiffies) := by
  have hge : 2 ^ (c.long.bits - 1) ≤ (expires - timerJiffies).toNat := by
    by_contra hlt
    have hw := c.two_pow_bits
    rw [BitVec.toInt_eq_toNat_of_lt (by omega)] at h
    omega
  have hbits := c.long.bits_ge
  have hle : ∀ k ≤ 3, 2 ^ c.shift k ≤ 2 ^ (c.long.bits - 1) := fun k hk =>
    Nat.pow_le_pow_right (by norm_num) ((c.shift_mono hk).trans (c.shift_three.trans (by omega)))
  have h0 := hle 0 (by omega)
  have h1 := hle 1 (by omega)
  have h2 := hle 2 (by omega)
  have h3 := hle 3 le_rfl
  rw [c.shift_zero] at h0
  unfold slotFor
  simp only [h, if_true]
  rw [if_neg (by omega), if_neg (by omega), if_neg (by omega), if_neg (by omega)]

section

variable (due : α → ℕ) {base : TvecBase c α} {x : TimerList c α}

/-- A timer on a level of the wheel: its due time is `expires`, and in the future. -/
structure Waits (N : ℕ) (x : TimerList c α) : Prop where
  expires : x.expires = BitVec.ofNat _ (due x.data)
  ge : N ≤ due x.data
  lt : due x.data < N + 2 ^ (c.long.bits - 1)

/-- The wheel when `now` is `N`, the lists of level `k` being those visited from `M k` on. -/
structure WheelOk (N : ℕ) (M : ℕ → ℕ) (base : TvecBase c α) : Prop where
  jiffies : base.timerJiffies = BitVec.ofNat _ N
  root : ∀ i, ∀ x ∈ base.tv1 i, N ≤ due x.data ∧ (Slot.root i).Fits c N M (due x.data)
  level : ∀ k < 4, ∀ i, ∀ x ∈ base.tv k i, Waits due N x ∧ (Slot.level k i).Fits c N M (due x.data)

variable {due}

lemma WheelOk.addTail (h : WheelOk due N M base) {slot : Slot}
    (hfits : slot.Fits c N M (due x.data)) (hge : N ≤ due x.data)
    (hwaits : ∀ k i, slot = .level k i → Waits due N x) :
    WheelOk due N M (base.addTail x slot) := by
  cases slot with
  | root i =>
    refine ⟨h.jiffies, fun j y hy => ?_, h.level⟩
    simp only [TvecBase.addTail] at hy
    by_cases hji : j = i
    · subst hji
      rw [update_self] at hy
      rcases mem_append.mp hy with hy | hy
      · exact h.root j y hy
      · rw [mem_singleton.mp hy]
        exact ⟨hge, hfits⟩
    · rw [update_of_ne hji] at hy
      exact h.root j y hy
  | level k i =>
    refine ⟨h.jiffies, h.root, fun l hl j y hy => ?_⟩
    simp only [TvecBase.addTail] at hy
    by_cases hlk : l = k
    · subst hlk
      rw [update_self] at hy
      by_cases hji : j = i
      · subst hji
        rw [update_self] at hy
        rcases mem_append.mp hy with hy | hy
        · exact h.level l hl j y hy
        · rw [mem_singleton.mp hy]
          exact ⟨hwaits l j rfl, hfits⟩
      · rw [update_of_ne hji] at hy
        exact h.level l hl j y hy
    · rw [update_of_ne hlk] at hy
      exact h.level l hl j y hy

lemma WheelOk.add (h : WheelOk due N M base) (hM : ∀ k, M k = N ∨ M k = N + 1)
    (hx : Waits due N x) : WheelOk due N M (internalAddTimer base x) := by
  unfold internalAddTimer
  rw [h.jiffies, hx.expires]
  exact h.addTail (slotFor_fits hM hx.ge hx.lt) hx.ge fun _ _ _ => hx

lemma WheelOk.addAll (hM : ∀ k, M k = N ∨ M k = N + 1) : ∀ (l : List (TimerList c α))
    {base : TvecBase c α}, WheelOk due N M base → (∀ x ∈ l, Waits due N x) →
    WheelOk due N M (l.foldl internalAddTimer base)
  | [], _, h, _ => h
  | x :: l, _, h, hl =>
    addAll hM l (h.add hM (hl x mem_cons_self)) fun y hy => hl y (mem_cons_of_mem _ hy)

/-- The levels below `k` are past their visits of this jiffy. -/
def pastBelow (N k : ℕ) : ℕ → ℕ := fun j => if j < k then N + 1 else N

lemma pastBelow_cases (N k j : ℕ) : pastBelow N k j = N ∨ pastBelow N k j = N + 1 := by
  unfold pastBelow
  split_ifs
  · exact .inr rfl
  · exact .inl rfl

lemma WheelOk.advance (h : WheelOk due N (pastBelow N k) base)
    (hk : ∀ i, ∀ x ∈ base.tv k i, ∀ V, Visit c k N i V → V ≠ N) :
    WheelOk due N (pastBelow N (k + 1)) base := by
  refine ⟨h.jiffies, h.root, fun l hl i x hx => ?_⟩
  obtain ⟨hw, hl4, hi, V, hV, hle⟩ := h.level l hl i x hx
  refine ⟨hw, hl4, hi, V, ?_, hle⟩
  unfold pastBelow at hV ⊢
  rcases lt_trichotomy l k with hlt | rfl | hgt
  · rw [if_pos hlt] at hV
    rw [if_pos (by omega)]
    exact hV
  · rw [if_neg (lt_irrefl _)] at hV
    rw [if_pos (by omega)]
    exact hV.later (hk i x hx V hV)
  · rw [if_neg (by omega)] at hV ⊢
    exact hV

lemma WheelOk.skip (h : WheelOk due N (pastBelow N k) base)
    (hN : ¬ 2 ^ c.shift k ∣ N) : WheelOk due N (pastBelow N (k + 1)) base :=
  h.advance fun _ _ _ _ hV he => hN (he ▸ hV.dvd)

lemma WheelOk.skipAll (hN : ¬ 2 ^ c.shift k ∣ N) : ∀ {n : ℕ},
    WheelOk due N (pastBelow N k) base → WheelOk due N (pastBelow N (k + n)) base
  | 0, h => h
  | n + 1, h => (skipAll hN h).skip fun hd =>
      hN ((pow_dvd_pow 2 (c.shift_mono (by omega))).trans hd)

lemma WheelOk.clear (h : WheelOk due N (pastBelow N k) base) (hN : 2 ^ c.shift k ∣ N) :
    WheelOk due N (pastBelow N (k + 1)) (base.clear k (N / 2 ^ c.shift k % 2 ^ c.tvnBits)) := by
  have hok : WheelOk due N (pastBelow N k) (base.clear k (N / 2 ^ c.shift k % 2 ^ c.tvnBits)) := by
    refine ⟨h.jiffies, h.root, fun l hl i x hx => h.level l hl i x ?_⟩
    simp only [TvecBase.clear] at hx
    by_cases hlk : l = k
    · subst hlk
      rw [update_self] at hx
      by_cases hi : i = N / 2 ^ c.shift l % 2 ^ c.tvnBits
      · rw [hi, update_self] at hx
        simp at hx
      · rwa [update_of_ne hi] at hx
    · rwa [update_of_ne hlk] at hx
  refine hok.advance fun i x hx V hV he => ?_
  have hindex := hV.index
  rw [he, c.shift_succ, pow_add, mul_comm (2 ^ c.shift k)] at hindex
  have hi : i = N / 2 ^ c.shift k % 2 ^ c.tvnBits := by
    obtain ⟨q, rfl⟩ := hN
    rw [mul_comm (2 ^ c.shift k), Nat.mul_mod_mul_right] at hindex
    rw [Nat.mul_div_cancel_left _ (Nat.two_pow_pos _)]
    exact (Nat.eq_of_mul_eq_mul_right (Nat.two_pow_pos _) hindex).symm
  simp only [TvecBase.clear, update_self, hi] at hx
  simp at hx

lemma WheelOk.cascade (h : WheelOk due N (pastBelow N k) base) (hk : k < 4)
    (hN : 2 ^ c.shift k ∣ N) :
    WheelOk due N (pastBelow N (k + 1)) (cascade base k (base.index k)) := by
  have hindex : base.index k = N / 2 ^ c.shift k % 2 ^ c.tvnBits := by
    rw [TvecBase.index, h.jiffies, levelIndex_ofNat hk]
  unfold Timer.cascade
  rw [hindex]
  exact WheelOk.addAll (pastBelow_cases N (k + 1)) _ (h.clear hN) fun x hx =>
    (h.level k hk _ x hx).1

lemma WheelOk.cascadeFrom : ∀ {n k : ℕ} {base : TvecBase c α}, k + n = 4 →
    WheelOk due N (pastBelow N k) base → 2 ^ c.shift k ∣ N →
    WheelOk due N (pastBelow N 4) (cascadeFrom n k base)
  | 0, k, base, hk, h, _ => by
    obtain rfl : k = 4 := by omega
    exact h
  | n + 1, k, base, hk, h, hN => by
    have hc := h.cascade (by omega) hN
    have hindex : base.index k = N / 2 ^ c.shift k % 2 ^ c.tvnBits := by
      rw [TvecBase.index, h.jiffies, levelIndex_ofNat (by omega)]
    have hdvd : 2 ^ c.shift (k + 1) ∣ N ↔ base.index k = 0 := by
      rw [hindex, c.shift_succ, pow_add, ← Nat.dvd_iff_mod_eq_zero]
      obtain ⟨q, rfl⟩ := hN
      rw [Nat.mul_div_cancel_left _ (Nat.two_pow_pos _)]
      exact Nat.mul_dvd_mul_iff_left (Nat.two_pow_pos _)
    rw [Timer.cascadeFrom]
    split_ifs with h0
    · exact WheelOk.cascadeFrom (by omega) hc (hdvd.mpr h0)
    · have := WheelOk.skipAll (fun hd => h0 (hdvd.mp hd)) hc (n := n)
      rwa [show k + 1 + n = 4 by omega] at this

lemma WheelOk.pass (h : WheelOk due N (fun _ => N) base) :
    (∀ x ∈ (runTimersPass base).1, due x.data = N)
      ∧ WheelOk due (N + 1) (fun _ => N + 1) (runTimersPass base).2 := by
  have hindex : rootIndex base.timerJiffies = N % 2 ^ c.tvrBits := by
    rw [h.jiffies, rootIndex_ofNat]
  have hc : WheelOk due N (pastBelow N 4)
      (if rootIndex base.timerJiffies = 0 then Timer.cascadeFrom 4 0 base else base) := by
    have h0 : WheelOk due N (pastBelow N 0) base := h
    have hdvd : 2 ^ c.shift 0 ∣ N ↔ rootIndex base.timerJiffies = 0 := by
      rw [hindex, c.shift_zero, Nat.dvd_iff_mod_eq_zero]
    split_ifs with hi
    · exact WheelOk.cascadeFrom rfl h0 (hdvd.mpr hi)
    · exact WheelOk.skipAll (fun hd => hi (hdvd.mp hd)) h0 (n := 4)
  unfold runTimersPass
  simp only
  rw [hindex] at hc ⊢
  generalize (if N % 2 ^ c.tvrBits = 0 then Timer.cascadeFrom 4 0 base else base) = b at hc
  have hnow : ∀ i, ∀ x ∈ b.tv1 i, i = N % 2 ^ c.tvrBits ↔ due x.data = N := by
    intro i x hx
    obtain ⟨hge, hi, hlt⟩ := hc.root i x hx
    constructor
    · intro he
      have hmod := Nat.sub_mod_eq_zero_of_mod_eq (hi.symm.trans he)
      rw [Nat.mod_eq_of_lt (by omega)] at hmod
      omega
    · rintro he
      rw [hi, he]
  refine ⟨fun x hx => (hnow _ x hx).mp rfl, ?_, fun i x hx => ?_, fun k hk i x hx => ?_⟩
  · simp only [hc.jiffies]
    rw [BitVec.ofNat_add]
    rfl
  · simp only at hx
    by_cases hi : i = N % 2 ^ c.tvrBits
    · rw [hi, update_self] at hx
      simp at hx
    · rw [update_of_ne hi] at hx
      obtain ⟨hge, hif, hlt⟩ := hc.root i x hx
      have hne := mt (hnow i x hx).mpr hi
      exact ⟨by omega, hif, by omega⟩
  · obtain ⟨hw, hk4, hi, V, hV, hle⟩ := hc.level k hk i x hx
    rw [pastBelow, if_pos hk] at hV
    have hge := hV.ge
    have hlt := hw.lt
    exact ⟨⟨hw.expires, by omega, by omega⟩, hk4, hi, V, hV, hle⟩

end

section

open Finset (range)

def vecTimers {β : Type*} (m : ℕ) (vec : ℕ → List β) : Multiset β := ∑ i ∈ range m,
    (vec i : Multiset β)

def TvecBase.pending (base : TvecBase c α) : Multiset (TimerList c α) :=
  vecTimers (2 ^ c.tvrBits) base.tv1 + ∑ k ∈ range 4, vecTimers (2 ^ c.tvnBits) (base.tv k)

variable {m : ℕ}

lemma sum_range_update {β : Type*} (f : ℕ → Multiset β) (hi : i < m) (y : Multiset β) :
    (∑ j ∈ range m, update f i y j) + f i = (∑ j ∈ range m, f j) + y := by
  have hmem := Finset.mem_range.mpr hi
  rw [Finset.sum_update_of_mem hmem, Finset.sum_eq_add_sum_sdiff_singleton_of_mem hmem f,
    add_right_comm, add_comm y (f i), add_right_comm]

lemma vecTimers_update {β : Type*} (vec : ℕ → List β) (hi : i < m) (l : List β) :
    vecTimers m (update vec i l) + (vec i : Multiset β)
    = vecTimers m vec + (l : Multiset β) := by
  have h := sum_range_update (fun j => (vec j : Multiset β)) hi l
  unfold vecTimers
  rw [← h]
  congr 1
  refine Finset.sum_congr rfl fun j _ => ?_
  by_cases hj : j = i
  · subst hj
    simp
  · simp [update_of_ne hj]

lemma levels_update (tv : ℕ → ℕ → List (TimerList c α)) (hk : k < 4)
    (hi : i < 2 ^ c.tvnBits) (l : List (TimerList c α)) :
    (∑ j ∈ range 4, vecTimers (2 ^ c.tvnBits)
        (update tv k (update (tv k) i l) j)) + (tv k i : Multiset _)
      = (∑ j ∈ range 4, vecTimers (2 ^ c.tvnBits) (tv j)) + (l : Multiset _) := by
  have h := sum_range_update (fun j => vecTimers (2 ^ c.tvnBits) (tv j)) hk
    (vecTimers (2 ^ c.tvnBits) (update (tv k) i l))
  have hv := vecTimers_update (tv k) hi l
  have hcongr : ∀ j, vecTimers (2 ^ c.tvnBits) (update tv k (update (tv k) i l) j)
      = update (fun j => vecTimers (2 ^ c.tvnBits) (tv j)) k
        (vecTimers (2 ^ c.tvnBits) (update (tv k) i l)) j := by
    intro j
    by_cases hj : j = k
    · subst hj
      simp
    · simp [update_of_ne hj]
  simp only [hcongr]
  refine add_right_cancel (b := vecTimers (2 ^ c.tvnBits) (tv k)) ?_
  rw [add_right_comm, h, add_assoc, hv, add_comm (vecTimers _ (tv k)), add_assoc]

lemma slotFor_cases (timerJiffies expires : c.Ulong) :
    (∃ i < 2 ^ c.tvrBits, slotFor timerJiffies expires = .root i)
      ∨ ∃ k < 4, ∃ i < 2 ^ c.tvnBits, slotFor timerJiffies expires = .level k i := by
  have hroot : ∀ x : c.Ulong, rootIndex x < 2 ^ c.tvrBits :=
    fun x => Nat.mod_lt _ (Nat.two_pow_pos _)
  unfold slotFor
  simp only
  split_ifs
  · exact .inl ⟨_, hroot _, rfl⟩
  · exact .inr ⟨0, by omega, _, levelIndex_lt _ _, rfl⟩
  · exact .inr ⟨1, by omega, _, levelIndex_lt _ _, rfl⟩
  · exact .inr ⟨2, by omega, _, levelIndex_lt _ _, rfl⟩
  · exact .inl ⟨_, hroot _, rfl⟩
  · exact .inr ⟨3, by omega, _, levelIndex_lt _ _, rfl⟩
  · exact .inr ⟨3, by omega, _, levelIndex_lt _ _, rfl⟩

lemma pending_add (base : TvecBase c α) (x : TimerList c α) :
    (internalAddTimer base x).pending = base.pending + {x} := by
  have hsnoc : ∀ l : List (TimerList c α),
      ((l ++ [x] : List _) : Multiset _) = (l : Multiset _) + {x} :=
    fun l => by rw [← Multiset.coe_add, Multiset.coe_singleton]
  unfold internalAddTimer TvecBase.pending
  rcases slotFor_cases base.timerJiffies x.expires with ⟨i, hi, he⟩ | ⟨k, hk, i, hi, he⟩
  · have h := vecTimers_update base.tv1 hi (base.tv1 i ++ [x])
    rw [hsnoc, add_left_comm] at h
    have h' := add_left_cancel ((add_comm _ _).trans h)
    simp only [he, TvecBase.addTail, h']
    rw [add_right_comm]
  · have h := levels_update base.tv hk hi (base.tv k i ++ [x])
    rw [hsnoc, add_left_comm] at h
    have h' := add_left_cancel ((add_comm _ _).trans h)
    simp only [he, TvecBase.addTail, h']
    rw [add_assoc]

lemma pending_addAll : ∀ (l : List (TimerList c α)) (base : TvecBase c α),
    (l.foldl internalAddTimer base).pending = base.pending + (l : Multiset _)
  | [], base => by simp
  | x :: l, base => by
    rw [foldl_cons, pending_addAll l, pending_add, add_assoc, Multiset.singleton_add,
      Multiset.cons_coe]

lemma mem_pending {base : TvecBase c α} {x : TimerList c α} (h : x ∈ base.pending) :
    (∃ i, x ∈ base.tv1 i) ∨ ∃ k < 4, ∃ i, x ∈ base.tv k i := by
  simp only [TvecBase.pending, vecTimers, Multiset.mem_add, Multiset.mem_sum, Multiset.mem_coe,
    Finset.mem_range] at h
  rcases h with ⟨i, -, hx⟩ | ⟨k, hk, i, -, hx⟩
  · exact .inl ⟨i, hx⟩
  · exact .inr ⟨k, hk, i, hx⟩

lemma pending_cascade (base : TvecBase c α) (hk : k < 4) :
    (cascade base k (base.index k)).pending = base.pending := by
  have h := levels_update base.tv hk (levelIndex_lt k base.timerJiffies) []
  rw [Multiset.coe_nil, add_zero] at h
  unfold cascade
  rw [pending_addAll]
  unfold TvecBase.pending TvecBase.clear TvecBase.index
  rw [add_assoc, h]

lemma pending_cascadeFrom : ∀ {n k : ℕ} (base : TvecBase c α), k + n = 4 →
    (cascadeFrom n k base).pending = base.pending
  | 0, _, _, _ => rfl
  | n + 1, k, base, hk => by
    have hc := pending_cascade base (show k < 4 by omega)
    rw [cascadeFrom]
    split_ifs
    · rw [pending_cascadeFrom _ (by omega), hc]
    · exact hc

lemma pending_pass (base : TvecBase c α) :
    ((runTimersPass base).1 : Multiset _) + (runTimersPass base).2.pending = base.pending := by
  have hindex : rootIndex base.timerJiffies < 2 ^ c.tvrBits := Nat.mod_lt _ (Nat.two_pow_pos _)
  have hc : (if rootIndex base.timerJiffies = 0 then cascadeFrom 4 0 base else base).pending
      = base.pending := by
    split_ifs
    · exact pending_cascadeFrom base rfl
    · rfl
  unfold runTimersPass
  simp only
  rw [← hc]
  generalize (if rootIndex base.timerJiffies = 0 then cascadeFrom 4 0 base else base) = b
  have h := vecTimers_update b.tv1 hindex []
  rw [Multiset.coe_nil, add_zero] at h
  unfold TvecBase.pending
  simp only
  rw [← add_assoc, add_comm (Multiset.ofList _), h]

end

structure Entry (ι : Type*) where
  id : ι
  due : ℕ
deriving DecidableEq

/-- The wheel in use: the time of the next pass, the timers of the current pass that are still to
run, those that have run, with the time of their pass, and all those that were added. -/
structure RunState (c : Config) (ι : Type*) where
  base : TvecBase c (Entry ι)
  now : ℕ
  work : List (TimerList c (Entry ι))
  ran : List (Entry ι × ℕ)
  added : Multiset (Entry ι)

/-- The time a timer added now is due: `expires`, or now when that is in the past. -/
def dueTime (timerJiffies expires : c.Ulong) (now : ℕ) : ℕ :=
  now + if (expires - timerJiffies).toInt < 0 then 0 else (expires - timerJiffies).toNat

def RunState.add (s : RunState c ι) (id : ι) (expires : c.Ulong) : RunState c ι :=
  let entry : Entry ι := ⟨id, dueTime s.base.timerJiffies expires s.now⟩
  { s with base := internalAddTimer s.base ⟨expires, entry⟩, added := s.added + {entry} }

def RunState.pass (s : RunState c ι) : RunState c ι :=
  { s with
    base := (runTimersPass s.base).2
    work := (runTimersPass s.base).1
    now := s.now + 1 }

/-- A pass is over when all its timers have run. -/
inductive Step (s : RunState c ι) : RunState c ι → Prop
  | add (id : ι) (expires : c.Ulong) : Step s (s.add id expires)
  | pass : s.work = [] → Step s s.pass
  | run {timer : TimerList c (Entry ι)} {rest : List (TimerList c (Entry ι))} :
      s.work = timer :: rest →
      Step s { s with work := rest, ran := s.ran ++ [(timer.data, s.now - 1)] }

inductive Reach : RunState c ι → Prop
  | init (timerJiffies : c.Ulong) :
      Reach ⟨TvecBase.init timerJiffies, timerJiffies.toNat, [], [], 0⟩
  | step {s s' : RunState c ι} : Reach s → Step s s' → Reach s'

structure RunOk (s : RunState c ι) : Prop where
  wheel : WheelOk Entry.due s.now (fun _ => s.now) s.base
  work : ∀ x ∈ s.work, x.data.due + 1 = s.now
  ran : ∀ p ∈ s.ran, p.2 = p.1.due
  added : s.added = (s.base.pending + (s.work : Multiset _)).map TimerList.data
    + ((s.ran.map Prod.fst : List _) : Multiset _)

lemma ofNat_dueTime {timerJiffies : c.Ulong} {now : ℕ} (h : timerJiffies = BitVec.ofNat _ now)
    (expires : c.Ulong) :
    BitVec.ofNat _ (now + (expires - timerJiffies).toNat) = expires := by
  rw [BitVec.ofNat_add, BitVec.ofNat_toNat, BitVec.setWidth_eq, ← h, add_sub_cancel]

lemma WheelOk.addDue {s : RunState c ι} (h : WheelOk Entry.due s.now (fun _ => s.now) s.base)
    (id : ι)
    (expires : c.Ulong) :
    WheelOk Entry.due s.now (fun _ => s.now) (internalAddTimer s.base
      ⟨expires, ⟨id, dueTime s.base.timerJiffies expires s.now⟩⟩) := by
  unfold dueTime
  split_ifs with hpast
  · unfold internalAddTimer
    rw [slotFor_past hpast, h.jiffies, rootIndex_ofNat]
    refine h.addTail ⟨rfl, ?_⟩ le_rfl fun _ _ he => by cases he
    exact Nat.lt_add_of_pos_right (Nat.two_pow_pos _)
  · have hlt : (expires - s.base.timerJiffies).toNat < 2 ^ (c.long.bits - 1) := by
      have hw := c.two_pow_bits
      rw [BitVec.toInt_eq_toNat_cond] at hpast
      split_ifs at hpast <;> omega
    refine h.add (fun _ => .inl rfl) ⟨?_, Nat.le_add_right _ _, Nat.add_lt_add_left hlt _⟩
    exact (ofNat_dueTime h.jiffies expires).symm

lemma RunOk.step {s s' : RunState c ι} (h : RunOk s) (hs : Step s s') : RunOk s' := by
  cases hs with
  | add id expires =>
    refine ⟨h.wheel.addDue id expires, h.work, h.ran, ?_⟩
    simp only [RunState.add, h.added, pending_add, Multiset.map_add, Multiset.map_singleton]
    abel
  | pass hwork =>
    obtain ⟨h1, h2⟩ := h.wheel.pass
    refine ⟨h2, fun x hx => ?_, h.ran, ?_⟩
    · rw [h1 x hx]
      rfl
    · simp only [RunState.pass, h.added, hwork]
      rw [← pending_pass s.base, Multiset.coe_nil, add_zero, add_comm (Multiset.ofList _)]
  | run hwork =>
    rename_i timer rest
    have hmem : timer ∈ s.work := by simp [hwork]
    have hdue := h.work timer hmem
    refine ⟨h.wheel, fun x hx => h.work x (by simp [hwork, hx]), fun p hp => ?_, ?_⟩
    · rcases mem_append.mp hp with hp | hp
      · exact h.ran p hp
      · rw [mem_singleton.mp hp]
        simp only
        omega
    · simp only [h.added, hwork]
      rw [← Multiset.cons_coe, ← Multiset.singleton_add, map_append, ← Multiset.coe_add]
      simp only [Multiset.map_add, Multiset.map_singleton, map_cons, map_nil,
        Multiset.coe_singleton]
      abel

lemma Reach.ok {s : RunState c ι} (h : Reach s) : RunOk s := by
  induction h with
  | init timerJiffies =>
    refine ⟨⟨?_, fun i x hx => ?_, fun k _ i x hx => ?_⟩, fun x hx => ?_, fun p hp => ?_, ?_⟩
    · simp [TvecBase.init]
    · simp [TvecBase.init] at hx
    · simp [TvecBase.init] at hx
    · simp at hx
    · simp at hp
    · simp [TvecBase.pending, TvecBase.init, vecTimers]
  | step _ hs ih => exact ih.step hs

/-- `timer_jiffies` is the number of the next pass; each timer added is on the wheel, with its pass
still to come, or among those of the current pass, which is its own, or has run in its pass. -/
theorem timers_run_when_due {s : RunState c ι} (h : Reach s) :
    s.base.timerJiffies = BitVec.ofNat _ s.now ∧ s.added = s.base.pending.map TimerList.data +
      ((s.work.map TimerList.data : List _) : Multiset _)
        + ((s.ran.map Prod.fst : List _) : Multiset _) ∧ (∀ x ∈ s.base.pending, s.now ≤ x.data.due)
      ∧ (∀ x ∈ s.work, x.data.due = s.now - 1) ∧ (∀ p ∈ s.ran, p.2 = p.1.due)
      ∧ ∀ expires : c.Ulong, 0 ≤ (expires - s.base.timerJiffies).toInt →
          BitVec.ofNat _ (dueTime s.base.timerJiffies expires s.now) = expires := by
  have hok := h.ok
  refine ⟨hok.wheel.jiffies, ?_, fun x hx => ?_, fun x hx => ?_, hok.ran, fun expires he => ?_⟩
  · rw [hok.added, Multiset.map_add, Multiset.map_coe]
  · rcases mem_pending hx with ⟨i, hx⟩ | ⟨k, hk, i, hx⟩
    · exact (hok.wheel.root i x hx).1
    · exact (hok.wheel.level k hk i x hx).1.ge
  rotate_left
  · rw [dueTime, if_neg (by omega)]
    exact ofNat_dueTime hok.wheel.jiffies expires
  · have := hok.work x hx
    omega

theorem timers_run_when_due_wrap :
    ∃ s : RunState ⟨false, .long32⟩ Bool, Reach s ∧ s.ran = [(⟨true, 2 ^ 32⟩, 2 ^ 32)]
      ∧ s.base.timerJiffies = 1 ∧ s.base.timerJiffies = BitVec.ofNat _ s.now := by
  have h0 : Reach (c := ⟨false, .long32⟩) (ι := Bool) _ := .init 0xffffffff
  have h1 := h0.step (.add true 0)
  have h2 := h1.step (.pass rfl)
  have h3 := h2.step (.pass (by decide +kernel))
  have h4 := h3.step (.run (show _ = ⟨0, ⟨true, 2 ^ 32⟩⟩ :: [] by decide +kernel))
  exact ⟨_, h4, by decide +kernel, by decide +kernel, (timers_run_when_due h4).1⟩

end LinuxKernel.Timer
