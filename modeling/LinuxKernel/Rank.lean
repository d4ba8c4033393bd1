import Mathlib

/-!
# Ordinals of set bits

The ordinal of a set bit is the number of set bits below it. Set bits and their ordinals determine
each other, and every number below the count of all is the ordinal of one.
-/

namespace LinuxKernel

variable {bit : ℕ → Bool}

def bitRank (bit : ℕ → Bool) (n : ℕ) : ℕ := Nat.count (fun i => bit i = true) n

lemma bitRank_zero : bitRank bit 0 = 0 := rfl

variable {m n : ℕ}

lemma bitRank_succ_of_set (h : bit n = true) :
    bitRank bit (n + 1) = bitRank bit n + 1 := by rw [bitRank, Nat.count_succ, if_pos h, bitRank]

lemma bitRank_succ_of_clear (h : ¬ bit n = true) :
    bitRank bit (n + 1) = bitRank bit n := by
  rw [bitRank, Nat.count_succ, if_neg h, add_zero, bitRank]

lemma bitRank_le (n : ℕ) : bitRank bit n ≤ n := Nat.count_le _

lemma bitRank_lt (hm : bit m = true) (hmn : m < n) : bitRank bit m < bitRank bit n :=
  Nat.count_strict_mono hm hmn

lemma bitRank_inj (hm : bit m = true) (hn : bit n = true)
    (h : bitRank bit m = bitRank bit n) : m = n :=
  Nat.count_injective hm hn h

lemma bitRank_add (m n : ℕ) :
    bitRank bit (m + n) = bitRank bit m + bitRank (fun i => bit (m + i)) n :=
  Nat.count_add _ m n

lemma bitRank_congr {bit' : ℕ → Bool} : ∀ {n : ℕ}, (∀ i < n, bit i = bit' i) →
    bitRank bit n = bitRank bit' n
  | 0, _ => rfl
  | n + 1, h => by
    have ih : bitRank bit n = bitRank bit' n := bitRank_congr fun i hi => h i (by omega)
    by_cases hn : bit n = true
    · rw [bitRank_succ_of_set hn, bitRank_succ_of_set ((h n (by omega)).symm.trans hn), ih]
    · rw [bitRank_succ_of_clear hn, bitRank_succ_of_clear (by rwa [← h n (by omega)]), ih]

lemma bitRank_clear : ∀ {n : ℕ}, m ≤ n → (∀ i, m ≤ i → i < n → bit i = false) →
    bitRank bit n = bitRank bit m
  | 0, hmn, _ => by rw [Nat.le_zero.mp hmn]
  | n + 1, hmn, h => by
    rcases Nat.eq_or_lt_of_le hmn with rfl | hlt
    · rfl
    · rw [bitRank_succ_of_clear (by simp [h n (by omega) (by omega)]),
        bitRank_clear (by omega) fun i h1 h2 => h i h1 (by omega)]

/-- Bit `n` is set, and `m` set bits are below it. -/
structure IsOrd (bit : ℕ → Bool) (size m n : ℕ) : Prop where
  lt : n < size
  set : bit n = true
  bitRank_eq : bitRank bit n = m

lemma exists_isOrd : ∀ {size : ℕ}, m < bitRank bit size → ∃ n, IsOrd bit size m n
  | 0, h => by
    rw [bitRank_zero] at h
    omega
  | size + 1, h => by
    by_cases hlt : m < bitRank bit size
    · obtain ⟨n, h1, h2, h3⟩ := exists_isOrd hlt
      exact ⟨n, by omega, h2, h3⟩
    by_cases hset : bit size = true
    · rw [bitRank_succ_of_set hset] at h
      exact ⟨size, by omega, hset, by omega⟩
    · rw [bitRank_succ_of_clear hset] at h
      omega

lemma IsOrd.unique {size n' : ℕ} (h : IsOrd bit size m n) (h' : IsOrd bit size m n') :
    n = n' :=
  bitRank_inj h.set h'.set (h.bitRank_eq.trans h'.bitRank_eq.symm)

def setFrom (bit : ℕ → Bool) : ℕ → ℕ → List ℕ
  | 0, _ => []
  | k + 1, i => if bit i then i :: setFrom bit k (i + 1) else setFrom bit k (i + 1)

lemma mem_setFrom : ∀ {k i : ℕ}, n ∈ setFrom bit k i ↔ i ≤ n ∧ n < i + k ∧ bit n = true
  | 0, i => by simp [setFrom]; omega
  | k + 1, i => by
    rw [setFrom]
    by_cases hi : bit i = true
    · rw [if_pos hi, List.mem_cons, mem_setFrom]
      constructor
      · rintro (rfl | ⟨h1, h2, h3⟩)
        · exact ⟨le_rfl, by omega, hi⟩
        · exact ⟨by omega, by omega, h3⟩
      · rintro ⟨h1, h2, h3⟩
        by_cases hn : n = i
        · exact .inl hn
        · exact .inr ⟨by omega, by omega, h3⟩
    · rw [if_neg hi, mem_setFrom]
      constructor
      · rintro ⟨h1, h2, h3⟩
        exact ⟨by omega, by omega, h3⟩
      rintro ⟨h1, h2, h3⟩
      have hne : n ≠ i := by
        rintro rfl
        exact hi h3
      exact ⟨by omega, by omega, h3⟩

lemma setFrom_clear : ∀ (j : ℕ) {k i : ℕ}, (∀ n, i ≤ n → n < i + j → bit n = false) →
    setFrom bit (j + k) i = setFrom bit k (i + j)
  | 0, k, i, _ => by rw [zero_add, add_zero]
  | j + 1, k, i, h => by
    rw [show j + 1 + k = (j + k) + 1 by omega, setFrom, if_neg (by simp [h i le_rfl (by omega)]),
      setFrom_clear j fun n h1 h2 => h n (by omega) (by omega),
      show i + 1 + j = i + (j + 1) by omega]

end LinuxKernel
