import LinuxKernel.Memblock

/-!
# The memory table covers what was added and not removed

Each call rewrites at most two entries of the table. Adding to a table whose last region was removed
(`cnt = 0`) reads the stale first entry, and removing from the middle of an entry of a full table
loses the tail; every other call keeps the table ordered and its cover exact.
-/

namespace LinuxKernel.Mm

open Function

def MemblockProperty.addrs (p : MemblockProperty) : Set ℕ := Set.Ico p.base (p.base + p.size)

def MemblockRegion.covers (rgn : MemblockRegion) : Set ℕ :=
  {a | ∃ i < rgn.cnt, a ∈ (rgn.region i).addrs}

/-- The entries in use end before the next one starts, inside the address space. -/
structure MemblockRegion.Ordered (rgn : MemblockRegion) : Prop where
  cnt_le : rgn.cnt ≤ maxMemblockRegions
  below : ∀ i < rgn.cnt, (rgn.region i).base + (rgn.region i).size < 2 ^ 64
  sorted : ∀ i j, i < j → j < rgn.cnt →
    (rgn.region i).base + (rgn.region i).size ≤ (rgn.region j).base

def MemblockRegion.Filled (rgn : MemblockRegion) : Prop :=
  (rgn.cnt = 1 ∧ rgn.region 0 = ⟨0, 0⟩) ∨ ∀ i < rgn.cnt, 0 < (rgn.region i).size

def MemblockRegion.Apart (rgn : MemblockRegion) (base size : ℕ) : Prop :=
  ∀ i < rgn.cnt, base + size ≤ (rgn.region i).base
    ∨ (rgn.region i).base + (rgn.region i).size ≤ base

variable (L : LongSize)

section

variable {rgn : MemblockRegion} {i : ℕ} {p : MemblockProperty}

@[simp]
lemma MemblockRegion.set_cnt (rgn : MemblockRegion) (i : ℕ) (p : MemblockProperty) :
    (rgn.set i p).cnt = rgn.cnt := rfl

@[simp]
lemma MemblockRegion.set_region_self (rgn : MemblockRegion) (i : ℕ) (p : MemblockProperty) :
    (rgn.set i p).region i = p := by simp [MemblockRegion.set]

lemma MemblockRegion.set_region_ne (rgn : MemblockRegion) {i k : ℕ} (p : MemblockProperty)
    (h : k ≠ i) : (rgn.set i p).region k = rgn.region k := by simp [MemblockRegion.set, h]

variable {a : ℕ}

lemma MemblockProperty.mem_addrs :
    a ∈ p.addrs ↔ p.base ≤ a ∧ a < p.base + p.size := Iff.rfl

lemma MemblockRegion.mem_covers :
    a ∈ rgn.covers ↔ ∃ i < rgn.cnt, a ∈ (rgn.region i).addrs := Iff.rfl

lemma MemblockRegion.mem_covers_set (hi : i < rgn.cnt) (p : MemblockProperty) :
    a ∈ (rgn.set i p).covers ↔ a ∈ p.addrs ∨ ∃ k < rgn.cnt, k ≠ i ∧ a ∈ (rgn.region k).addrs := by
  simp only [mem_covers, set_cnt]
  constructor
  · rintro ⟨k, hk, hka⟩
    rcases eq_or_ne k i with rfl | hne
    · exact .inl (by simpa using hka)
    · exact .inr ⟨k, hk, hne, by simpa [set_region_ne rgn p hne] using hka⟩
  · rintro (hp | ⟨k, hk, hne, hka⟩)
    · exact ⟨i, hi, by simpa using hp⟩
    · exact ⟨k, hk, by simpa [set_region_ne rgn p hne] using hka⟩

lemma MemblockRegion.mem_covers_split (hi : i < rgn.cnt) :
    a ∈ rgn.covers ↔
      a ∈ (rgn.region i).addrs ∨ ∃ k < rgn.cnt, k ≠ i ∧ a ∈ (rgn.region k).addrs := by
  rw [← mem_covers_set hi, MemblockRegion.set, update_eq_self]

lemma MemblockRegion.Ordered.set (h : rgn.Ordered) (hb : p.base + p.size < 2 ^ 64)
    (hlo : ∀ k < i, (rgn.region k).base + (rgn.region k).size ≤ p.base)
    (hhi : ∀ k, i < k → k < rgn.cnt → p.base + p.size ≤ (rgn.region k).base) :
    (rgn.set i p).Ordered where
  cnt_le := h.cnt_le
  below k hk := by
    rcases eq_or_ne k i with rfl | hne
    · simpa using hb
    · rw [set_region_ne rgn p hne]
      exact h.below k hk
  sorted j k hjk hk := by
    rcases eq_or_ne j i with rfl | hj
    · rw [set_region_self, set_region_ne rgn p (by omega)]
      exact hhi k hjk hk
    rw [set_region_ne rgn p hj]
    rcases eq_or_ne k i with rfl | hne
    · rw [set_region_self]
      exact hlo j hjk
    · rw [set_region_ne rgn p hne]
      exact h.sorted j k hjk hk

lemma MemblockRegion.Ordered.trim (h : rgn.Ordered)
    (hi : i < rgn.cnt) (hlo : (rgn.region i).base ≤ p.base)
    (hhi : p.base + p.size ≤ (rgn.region i).base + (rgn.region i).size) :
    (rgn.set i p).Ordered := by
  refine h.set (lt_of_le_of_lt hhi (h.below i hi)) (fun k hk => ?_) (fun k hk1 hk2 => ?_)
  · exact (h.sorted k i hk hi).trans hlo
  · exact hhi.trans (h.sorted i k hk1 hk2)

lemma MemblockRegion.filled_set (h : ∀ i < rgn.cnt, 0 < (rgn.region i).size)
    (hp : 0 < p.size) : ∀ k < (rgn.set i p).cnt, 0 < ((rgn.set i p).region k).size := by
  intro k hk
  rcases eq_or_ne k i with rfl | hne
  · simpa using hp
  · rw [set_region_ne rgn p hne]
    exact h k hk

end

section

lemma shiftDown_some : ∀ (n i : ℕ) (region : ℕ → MemblockProperty), i + n ≤ maxMemblockRegions →
    ∃ region', shiftDown region n i = some region'
      ∧ ∀ k, region' k = if i ≤ k ∧ k < i + n then region (k + 1) else region k
  | 0, i, region, _ => ⟨region, rfl, fun k => by rw [if_neg (by omega)]⟩
  | n + 1, i, region, h => by
    obtain ⟨region', hs, hr⟩ := shiftDown_some n (i + 1)
      (update region i (region (i + 1))) (by omega)
    refine ⟨region', by rw [shiftDown, if_pos (by omega), hs], fun k => ?_⟩
    rw [hr k]
    rcases lt_trichotomy k i with hk | rfl | hk
    · rw [if_neg (by omega), if_neg (by omega), update_of_ne (by omega)]
    · rw [if_neg (by omega), if_pos (by omega), update_self]
    · rw [update_of_ne (by omega), update_of_ne (by omega)]
      by_cases hn : k < i + (n + 1)
      · rw [if_pos (by omega), if_pos (by omega)]
      · rw [if_neg (by omega), if_neg (by omega)]

variable {rgn : MemblockRegion} {r : ℕ}

lemma cnt_sub_one (h0 : 0 < rgn.cnt)
    (hc : rgn.cnt ≤ maxMemblockRegions) : subMod L.bits rgn.cnt 1 = rgn.cnt - 1 := by
  refine subMod_of_le h0 ?_
  have := L.two_pow_bits_ge
  simp only [maxMemblockRegions] at hc
  omega

lemma memblockRemoveRegion_some (rgn : MemblockRegion) (hr : r < rgn.cnt)
    (hc : rgn.cnt ≤ maxMemblockRegions) :
    ∃ rgn', memblockRemoveRegion L rgn r = some rgn' ∧ rgn'.cnt + 1 = rgn.cnt
      ∧ (∀ k < r, rgn'.region k = rgn.region k)
      ∧ ∀ k, r ≤ k → k < rgn'.cnt → rgn'.region k = rgn.region (k + 1) := by
  have h1 := cnt_sub_one L (Nat.zero_lt_of_lt hr) hc
  obtain ⟨region', hs, hk⟩ := shiftDown_some (rgn.cnt - 1 - r) r rgn.region (by omega)
  refine ⟨⟨rgn.cnt - 1, region'⟩, ?_, by simp only []; omega, fun k hkr => ?_, fun k h2 h3 => ?_⟩
  · simp [memblockRemoveRegion, h1, hs]
  · simp only [hk k]
    rw [if_neg (by omega)]
  · simp only [] at h3
    simp only [hk k]
    rw [if_pos (by omega)]

variable {L} in
lemma memblockRemoveRegion_spec (h : rgn.Ordered)
    (hr : r < rgn.cnt) :
    ∃ rgn', memblockRemoveRegion L rgn r = some rgn' ∧ rgn'.Ordered ∧ rgn'.cnt + 1 = rgn.cnt
      ∧ (∀ k < rgn'.cnt, ∃ j < rgn.cnt, j ≠ r ∧ rgn'.region k = rgn.region j)
      ∧ ∀ a, a ∈ rgn'.covers ↔ ∃ k < rgn.cnt, k ≠ r ∧ a ∈ (rgn.region k).addrs := by
  obtain ⟨rgn', hs, hc, hlo, hhi⟩ := memblockRemoveRegion_some L rgn hr h.cnt_le
  have hent : ∀ k < rgn'.cnt, ∃ j < rgn.cnt, j ≠ r ∧ k ≤ j ∧ rgn'.region k = rgn.region j
      ∧ (k < r → j = k) ∧ (r ≤ k → j = k + 1) := by
    intro k hk
    by_cases hkr : k < r
    · exact ⟨k, by omega, by omega, le_rfl, hlo k hkr, fun _ => rfl, by omega⟩
    · exact ⟨k + 1, by omega, by omega, by omega, hhi k (by omega) hk, by omega, fun _ => rfl⟩
  refine ⟨rgn', hs, ⟨by have := h.cnt_le; omega, fun k hk => ?_, fun j k hjk hk => ?_⟩, hc,
    fun k hk => ?_, fun a => ⟨?_, ?_⟩⟩
  · obtain ⟨j, hj, -, -, he, -⟩ := hent k hk
    rw [he]
    exact h.below j hj
  · obtain ⟨j', hj', -, -, he, hj1, hj2⟩ := hent j (by omega)
    obtain ⟨k', hk', -, -, he', hk1, hk2⟩ := hent k hk
    rw [he, he']
    refine h.sorted j' k' ?_ hk'
    by_cases hjr : j < r <;> by_cases hkr : k < r
    · rw [hj1 hjr, hk1 hkr]; omega
    · rw [hj1 hjr, hk2 (by omega)]; omega
    · omega
    · rw [hj2 (by omega), hk2 (by omega)]; omega
  · obtain ⟨j, hj, hne, -, he, -⟩ := hent k hk
    exact ⟨j, hj, hne, he⟩
  · rintro ⟨k, hk, hka⟩
    obtain ⟨j, hj, hne, -, he, -⟩ := hent k hk
    exact ⟨j, hj, hne, he ▸ hka⟩
  · rintro ⟨k, hk, hne, hka⟩
    by_cases hkr : k < r
    · exact ⟨k, by omega, by rw [hlo k hkr]; exact hka⟩
    · refine ⟨k - 1, by omega, ?_⟩
      rw [hhi (k - 1) (by omega) (by omega), show k - 1 + 1 = k by omega]
      exact hka

end

section

variable {L}

variable {rgn : MemblockRegion}

variable {base base1 base2 size size1 size2 : ℕ}

lemma memblockAddrsAdjacent_pos (h : base1 + size1 < 2 ^ 64) :
    0 < memblockAddrsAdjacent base1 size1 base2 size2 ↔ base2 = base1 + size1 := by
  unfold memblockAddrsAdjacent
  rw [addMod_of_lt h]
  split_ifs <;> simp_all

lemma memblockAddrsAdjacent_neg (h1 : base1 + size1 < 2 ^ 64)
    (h2 : base2 + size2 < 2 ^ 64) :
    memblockAddrsAdjacent base1 size1 base2 size2 < 0 ↔
      base2 ≠ base1 + size1 ∧ base1 = base2 + size2 := by
  unfold memblockAddrsAdjacent
  rw [addMod_of_lt h1, addMod_of_lt h2]
  split_ifs <;> simp_all

/-- Where the first loop of `memblock_add_region` stops, from entry `i` on: at no entry, or at one
that starts where the range ends or ends where it starts, and takes the range in. -/
inductive Joined (rgn : MemblockRegion) (base size i : ℕ) :
    Option (MemblockRegion × ℕ × ℕ) → Prop
  | none (h : ∀ k, i ≤ k → k < rgn.cnt → (rgn.region k).base ≠ base + size
      ∧ (rgn.region k).base + (rgn.region k).size ≠ base) :
      Joined rgn base size i (some (rgn, rgn.cnt, 0))
  | below (j : ℕ) (hj : j < rgn.cnt) (h : (rgn.region j).base = base + size) :
      Joined rgn base size i (some (rgn.set j ⟨base, (rgn.region j).size + size⟩, j, 1))
  | above (j : ℕ) (hj : j < rgn.cnt) (h : (rgn.region j).base + (rgn.region j).size = base) :
      Joined rgn base size i
        (some (rgn.set j ⟨(rgn.region j).base, (rgn.region j).size + size⟩, j, 1))

lemma tryCoalesce_joined (h : rgn.Ordered)
    (hs : 0 < size) (hb : base + size < 2 ^ 64) (ha : rgn.Apart base size) :
    ∀ (n i : ℕ), i + n = rgn.cnt → Joined rgn base size i (tryCoalesce rgn base size n i)
  | 0, i, hi => by
    obtain rfl : i = rgn.cnt := by omega
    exact Joined.none fun k _ _ => by omega
  | n + 1, i, hi => by
    have hbi := h.below i (by omega)
    have hai := ha i (by omega)
    rw [tryCoalesce]
    simp only [memblockAddrsAdjacent_pos hb, memblockAddrsAdjacent_neg hb hbi]
    rw [if_neg (by omega)]
    split_ifs with h1 h2
    · rw [addMod_of_lt (by omega), subMod_of_le (by omega) (by omega), h1, Nat.add_sub_cancel]
      exact .below i (by omega) h1
    · rw [addMod_of_lt (by omega)]
      exact .above i (by omega) h2.2.symm
    have ih := tryCoalesce_joined h hs hb ha n (i + 1) (by omega)
    generalize tryCoalesce rgn base size n (i + 1) = o at ih ⊢
    cases ih with
    | none hn =>
      refine .none fun k hik hk => ?_
      rcases eq_or_lt_of_le hik with rfl | hlt
      · exact ⟨h1, fun he => h2 ⟨h1, he.symm⟩⟩
      · exact hn k hlt hk
    | below j hj hjb => exact .below j hj hjb
    | above j hj hja => exact .above j hj hja

lemma memblockCoalesceRegions_spec (h : rgn.Ordered)
    (hf : ∀ i < rgn.cnt, 0 < (rgn.region i).size) {i : ℕ} (hi : i + 1 < rgn.cnt)
    (ht : memblockRegionsAdjacent rgn i (i + 1) ≠ 0) :
    ∃ rgn', memblockCoalesceRegions L rgn i (i + 1) = some rgn' ∧ rgn'.Ordered
      ∧ (∀ i < rgn'.cnt, 0 < (rgn'.region i).size) ∧ rgn'.covers = rgn.covers := by
  have hb1 := h.below i (by omega)
  have hb2 := h.below (i + 1) hi
  have hs := h.sorted i (i + 1) (by omega) hi
  have hp1 := hf i (by omega)
  have hp2 := hf (i + 1) hi
  have he : (rgn.region (i + 1)).base = (rgn.region i).base + (rgn.region i).size := by
    by_contra hne
    apply ht
    simp only [memblockRegionsAdjacent, memblockAddrsAdjacent]
    rw [addMod_of_lt hb1, addMod_of_lt hb2, if_neg hne, if_neg (by omega)]
  set p : MemblockProperty :=
    ⟨(rgn.region i).base, (rgn.region i).size + (rgn.region (i + 1)).size⟩ with hp
  obtain ⟨rgn', hr, hc, hlo, hhi⟩ :=
    memblockRemoveRegion_some L (rgn.set i p) (r := i + 1) hi h.cnt_le
  rw [MemblockRegion.set_cnt] at hc
  have hlo' : ∀ k < i, rgn'.region k = rgn.region k := fun k hk => by
    rw [hlo k (by omega), MemblockRegion.set_region_ne _ _ (by omega)]
  have hmid : rgn'.region i = p := by rw [hlo i (by omega), MemblockRegion.set_region_self]
  have hhi' : ∀ k, i < k → k < rgn'.cnt → rgn'.region k = rgn.region (k + 1) := fun k h1 h2 => by
    rw [hhi k (by omega) h2, MemblockRegion.set_region_ne _ _ (by omega)]
  refine ⟨rgn', ?_, ⟨by have := h.cnt_le; omega, fun k hk => ?_, fun j k hjk hk => ?_⟩,
    fun k hk => ?_, ?_⟩
  · rw [memblockCoalesceRegions, addMod_of_lt (by omega)]
    exact hr
  · rcases lt_trichotomy k i with hki | rfl | hki
    · rw [hlo' k hki]
      exact h.below k (by omega)
    · rw [hmid]
      simp only [hp]
      omega
    · rw [hhi' k hki hk]
      exact h.below (k + 1) (by omega)
  · rcases lt_trichotomy j i with hj | rfl | hj
    · rw [hlo' j hj]
      rcases lt_trichotomy k i with hki | rfl | hki
      · rw [hlo' k hki]
        exact h.sorted j k hjk (by omega)
      · rw [hmid]
        exact h.sorted j k hjk (by omega)
      · rw [hhi' k hki hk]
        exact h.sorted j (k + 1) (by omega) (by omega)
    · rw [hmid, hhi' k hjk hk]
      have := h.sorted (j + 1) (k + 1) (by omega) (by omega)
      simp only [hp]
      omega
    · rw [hhi' j hj (by omega), hhi' k (by omega) hk]
      exact h.sorted (j + 1) (k + 1) (by omega) (by omega)
  · rcases lt_trichotomy k i with hki | rfl | hki
    · rw [hlo' k hki]
      exact hf k (by omega)
    · rw [hmid]
      simp only [hp]
      omega
    · rw [hhi' k hki hk]
      exact hf (k + 1) (by omega)
  · ext a
    constructor
    · rintro ⟨k, hk, hka⟩
      rcases lt_trichotomy k i with hki | rfl | hki
      · exact ⟨k, by omega, by rwa [hlo' k hki] at hka⟩
      · rw [hmid, MemblockProperty.mem_addrs] at hka
        simp only [hp] at hka
        by_cases hak : a < (rgn.region k).base + (rgn.region k).size
        · exact ⟨k, by omega, hka.1, hak⟩
        · exact ⟨k + 1, hi, by omega, by omega⟩
      · exact ⟨k + 1, by omega, by rwa [hhi' k hki hk] at hka⟩
    · rintro ⟨k, hk, hka⟩
      rcases lt_trichotomy k i with hki | rfl | hki
      · exact ⟨k, by omega, by rwa [hlo' k hki]⟩
      · refine ⟨k, by omega, ?_⟩
        rw [hmid, MemblockProperty.mem_addrs]
        rw [MemblockProperty.mem_addrs] at hka
        simp only [hp]
        omega
      · rcases eq_or_lt_of_le (Nat.succ_le_of_lt hki) with rfl | hlt
        · refine ⟨i, by omega, ?_⟩
          rw [hmid, MemblockProperty.mem_addrs]
          rw [MemblockProperty.mem_addrs] at hka
          simp only [hp, Nat.succ_eq_add_one] at hka ⊢
          omega
        · refine ⟨k - 1, by omega, ?_⟩
          rw [hhi' (k - 1) (by omega) (by omega), show k - 1 + 1 = k by omega]
          exact hka

/-- The second loop moves the entries past `pos` up by one and writes the range at `pos`, unless
every entry was moved. -/
lemma insertSorted_spec (base size : ℕ) : ∀ (n : ℕ) (region : ℕ → MemblockProperty),
    ∃ pos ≤ n, (0 < pos → ¬ base < (region (pos - 1)).base)
      ∧ (∀ k, pos ≤ k → k < n → base < (region k).base)
      ∧ (∀ k < pos, insertSorted base size region n k = region k)
      ∧ insertSorted base size region n pos = (if pos = 0 then region 0 else ⟨base, size⟩)
      ∧ ∀ k, pos < k → k ≤ n → insertSorted base size region n k = region (k - 1)
  | 0, region => ⟨0, le_rfl, by omega, by omega, by omega, rfl, by omega⟩
  | n + 1, region => by
    rw [insertSorted]
    split_ifs with hlt
    · obtain ⟨pos, hpos, h1, h2, h3, h4, h5⟩ :=
        insertSorted_spec base size n (update region (n + 1) (region n))
      have hu : ∀ k ≤ n, update region (n + 1) (region n) k = region k := fun k hk =>
        update_of_ne (by omega) _ _
      have hlast : ∀ (m : ℕ) (reg : ℕ → MemblockProperty) (k : ℕ), m < k →
          insertSorted base size reg m k = reg k := by
        intro m
        induction m with
        | zero => intro reg k _; rfl
        | succ m ih =>
          intro reg k hk
          rw [insertSorted]
          split_ifs
          · rw [ih _ k (by omega), update_of_ne (by omega)]
          · rw [update_of_ne (by omega)]
      refine ⟨pos, by omega, fun hp => ?_, fun k hk1 hk2 => ?_, fun k hk => ?_, ?_,
        fun k hk1 hk2 => ?_⟩
      · have := h1 hp
        rwa [hu _ (by omega)] at this
      · rcases eq_or_lt_of_le (Nat.le_of_lt_succ hk2) with rfl | hkn
        · exact hlt
        · have := h2 k hk1 hkn
          rwa [hu k (by omega)] at this
      · rw [h3 k hk, hu k (by omega)]
      · rw [h4, hu 0 (by omega)]
      · rcases eq_or_lt_of_le hk2 with rfl | hkn
        · rw [hlast n _ (n + 1) (by omega), update_self, Nat.add_sub_cancel]
        · rw [h5 k hk1 (by omega), hu _ (by omega)]
    · refine ⟨n + 1, le_rfl, fun _ => by simpa using hlt, fun k _ _ => by omega, fun k hk => ?_, ?_,
        fun k _ _ => by omega⟩
      · rw [update_of_ne (by omega)]
      · rw [update_self, if_neg (by omega)]

lemma addToTable_entries (h : rgn.Ordered) (base size : ℕ)
    (hc : 0 < rgn.cnt) (hm : rgn.cnt < maxMemblockRegions) :
    ∃ (region' : ℕ → MemblockProperty) (pos : ℕ),
    addToTable rgn base size = (⟨rgn.cnt + 1, region'⟩, 0) ∧ pos ≤ rgn.cnt
      ∧ (∀ k < pos, (rgn.region k).base ≤ base)
      ∧ (∀ k, pos ≤ k → k < rgn.cnt → base < (rgn.region k).base)
      ∧ (∀ k < pos, region' k = rgn.region k) ∧ region' pos = ⟨base, size⟩
      ∧ ∀ k, pos < k → k ≤ rgn.cnt → region' k = rgn.region (k - 1) := by
  obtain ⟨pos, hpos, h1, h2, h3, h4, h5⟩ := insertSorted_spec base size rgn.cnt rgn.region
  have hlow : ∀ k < pos, (rgn.region k).base ≤ base := by
    intro k hk
    have hp := h1 (by omega)
    rcases eq_or_lt_of_le (Nat.le_sub_one_of_lt hk) with rfl | hlt
    · omega
    · have := h.sorted k (pos - 1) hlt (by omega)
      omega
  simp only [addToTable, if_neg (not_le.2 hm)]
  rcases Nat.eq_zero_or_pos pos with rfl | hp
  · rw [if_pos rfl] at h4
    refine ⟨_, 0, rfl, hpos, hlow, h2, by omega, ?_, fun k hk1 hk2 => ?_⟩
    · rw [if_pos (by rw [h4]; exact h2 0 le_rfl hc), update_self]
    · rw [if_pos (by rw [h4]; exact h2 0 le_rfl hc), update_of_ne (by omega), h5 k hk1 hk2]
  · rw [if_neg (by omega)] at h4
    refine ⟨_, pos, rfl, hpos, hlow, h2, fun k hk => ?_, ?_, fun k hk1 hk2 => ?_⟩
    · rw [if_neg (by rw [h3 0 hp]; exact not_lt.2 (hlow 0 hp)), h3 k hk]
    · rw [if_neg (by rw [h3 0 hp]; exact not_lt.2 (hlow 0 hp)), h4]
    · rw [if_neg (by rw [h3 0 hp]; exact not_lt.2 (hlow 0 hp)), h5 k hk1 hk2]

lemma addToTable_spec (h : rgn.Ordered)
    (hf : ∀ i < rgn.cnt, 0 < (rgn.region i).size) (hs : 0 < size)
    (hb : base + size < 2 ^ 64) (ha : rgn.Apart base size) (hc : 0 < rgn.cnt)
    (hm : rgn.cnt < maxMemblockRegions) :
    ∃ rgn', addToTable rgn base size = (rgn', 0) ∧ rgn'.Ordered
      ∧ (∀ i < rgn'.cnt, 0 < (rgn'.region i).size)
      ∧ rgn'.covers = rgn.covers ∪ Set.Ico base (base + size) := by
  obtain ⟨region', pos, he, hpos, hlow, hhigh, h3, h4, h5⟩ := addToTable_entries h base size hc hm
  have hbefore : ∀ k < pos, (rgn.region k).base + (rgn.region k).size ≤ base := by
    intro k hk
    have := ha k (by omega)
    have := hlow k hk
    omega
  have hafter : ∀ k, pos ≤ k → k < rgn.cnt → base + size ≤ (rgn.region k).base := by
    intro k hk1 hk2
    have := ha k hk2
    have := hhigh k hk1 hk2
    have := hf k hk2
    omega
  refine ⟨_, he, ⟨hm, fun k hk => ?_, fun j k hjk hk => ?_⟩, fun k hk => ?_, ?_⟩
  · simp only [] at hk ⊢
    rcases lt_trichotomy k pos with hkp | rfl | hkp
    · rw [h3 k hkp]
      exact h.below k (by omega)
    · rw [h4]
      exact hb
    · rw [h5 k hkp (by omega)]
      exact h.below (k - 1) (by omega)
  · simp only [] at hk ⊢
    rcases lt_trichotomy j pos with hj | rfl | hj
    · rw [h3 j hj]
      rcases lt_trichotomy k pos with hkp | rfl | hkp
      · rw [h3 k hkp]
        exact h.sorted j k hjk (by omega)
      · rw [h4]
        exact hbefore j hj
      · rw [h5 k hkp (by omega)]
        exact h.sorted j (k - 1) (by omega) (by omega)
    · rw [h4, h5 k hjk (by omega)]
      exact hafter (k - 1) (by omega) (by omega)
    · rw [h5 j hj (by omega), h5 k (by omega) (by omega)]
      exact h.sorted (j - 1) (k - 1) (by omega) (by omega)
  · simp only [] at hk ⊢
    rcases lt_trichotomy k pos with hkp | rfl | hkp
    · rw [h3 k hkp]
      exact hf k (by omega)
    · rw [h4]
      exact hs
    · rw [h5 k hkp (by omega)]
      exact hf (k - 1) (by omega)
  · ext a
    simp only [MemblockRegion.mem_covers, Set.mem_union]
    constructor
    · rintro ⟨k, hk, hka⟩
      rcases lt_trichotomy k pos with hkp | rfl | hkp
      · exact .inl ⟨k, by omega, by rwa [h3 k hkp] at hka⟩
      · rw [h4] at hka
        exact .inr hka
      · exact .inl ⟨k - 1, by omega, by rwa [h5 k hkp (by omega)] at hka⟩
    · rintro (⟨k, hk, hka⟩ | ha')
      · by_cases hkp : k < pos
        · exact ⟨k, by omega, by rwa [h3 k hkp]⟩
        · refine ⟨k + 1, by omega, ?_⟩
          rwa [h5 (k + 1) (by omega) (by omega), Nat.add_sub_cancel]
      · exact ⟨pos, by omega, by rw [h4]; exact ha'⟩

lemma joined_spec (h : rgn.Ordered)
    (hf : ∀ i < rgn.cnt, 0 < (rgn.region i).size) (hs : 0 < size)
    (hb : base + size < 2 ^ 64) (ha : rgn.Apart base size) {j : ℕ} (hj : j < rgn.cnt)
    {p : MemblockProperty} (hp : p.size = (rgn.region j).size + size)
    (ht : (rgn.region j).base = base + size ∧ p.base = base
      ∨ (rgn.region j).base + (rgn.region j).size = base ∧ p.base = (rgn.region j).base) :
    (rgn.set j p).Ordered ∧ (∀ i < (rgn.set j p).cnt, 0 < ((rgn.set j p).region i).size)
      ∧ (rgn.set j p).covers = rgn.covers ∪ Set.Ico base (base + size) := by
  have hbj := h.below j hj
  refine ⟨h.set (by omega) (fun k hk => ?_) (fun k hk1 hk2 => ?_),
    MemblockRegion.filled_set hf (by omega), ?_⟩
  · have := h.sorted k j hk hj
    have := ha k (by omega)
    have := hf k (by omega)
    omega
  · have := h.sorted j k hk1 hk2
    have := ha k hk2
    have := hf k hk2
    omega
  · ext a
    rw [MemblockRegion.mem_covers_set hj, Set.mem_union, MemblockRegion.mem_covers_split hj]
    have : a ∈ p.addrs ↔ a ∈ (rgn.region j).addrs ∨ a ∈ Set.Ico base (base + size) := by
      simp only [MemblockProperty.mem_addrs, Set.mem_Ico]
      omega
    rw [this, or_right_comm]

/-- Adding a range that meets no entry of a table with live entries: the range is covered, or the
table is full and no entry ends where the range starts. -/
lemma memblockAddRegion_live (h : rgn.Ordered)
    (hf : ∀ i < rgn.cnt, 0 < (rgn.region i).size) (base size : ℕ) (hs : 0 < size)
    (hb : base + size < 2 ^ 64) (ha : rgn.Apart base size) (hc : 0 < rgn.cnt) :
    ∃ rgn' ret, memblockAddRegion L rgn base size = some (rgn', ret)
      ∧ rgn'.Ordered ∧ (∀ i < rgn'.cnt, 0 < (rgn'.region i).size)
      ∧ ((0 ≤ ret ∧ rgn'.covers = rgn.covers ∪ Set.Ico base (base + size))
        ∨ (ret = -1 ∧ rgn' = rgn ∧ rgn.cnt = maxMemblockRegions
          ∧ ∀ k < rgn.cnt, (rgn.region k).base + (rgn.region k).size ≠ base)) := by
  have hsub : subMod L.bits rgn.cnt 1 = rgn.cnt - 1 := cnt_sub_one L hc h.cnt_le
  have hfin : ∀ j p, (rgn.set j p).Ordered →
      (∀ i < (rgn.set j p).cnt, 0 < ((rgn.set j p).region i).size) →
      (rgn.set j p).covers = rgn.covers ∪ Set.Ico base (base + size) →
      ∃ rgn' ret, (if j < subMod L.bits (rgn.set j p).cnt 1
            ∧ memblockRegionsAdjacent (rgn.set j p) j (j + 1) ≠ 0 then
          (memblockCoalesceRegions L (rgn.set j p) j (j + 1)).map (·, ((1 + 1 : ℕ) : ℤ))
        else if 1 ≠ 0 then some (rgn.set j p, ((1 : ℕ) : ℤ))
        else some (addToTable (rgn.set j p) base size)) = some (rgn', ret)
      ∧ rgn'.Ordered ∧ (∀ i < rgn'.cnt, 0 < (rgn'.region i).size)
      ∧ 0 ≤ ret ∧ rgn'.covers = rgn.covers ∪ Set.Ico base (base + size) := by
    intro j p ho hl hcov
    rw [MemblockRegion.set_cnt, hsub]
    split_ifs with hadj
    · obtain ⟨rgn', he, ho', hl', hc'⟩ := memblockCoalesceRegions_spec (L := L) ho hl
        (by rw [MemblockRegion.set_cnt]; omega) hadj.2
      exact ⟨rgn', _, by rw [he]; rfl, ho', hl', by positivity, hc'.trans hcov⟩
    · exact ⟨_, _, rfl, ho, hl, by simp, hcov⟩
    · exact absurd one_ne_zero ‹_›
  rw [memblockAddRegion, if_neg (fun hd => by have := hf 0 hc; omega)]
  have hj := tryCoalesce_joined h hs hb ha rgn.cnt 0 (by omega)
  generalize tryCoalesce rgn base size rgn.cnt 0 = o at hj ⊢
  cases hj with
  | none hn =>
    simp only [ne_eq, not_true_eq_false, ↓reduceIte]
    rw [if_neg (fun hd => by omega)]
    by_cases hm : rgn.cnt < maxMemblockRegions
    · obtain ⟨rgn', he, ho', hl', hc'⟩ := addToTable_spec h hf hs hb ha hc hm
      exact ⟨rgn', 0, by rw [he], ho', hl', .inl ⟨le_rfl, hc'⟩⟩
    · refine ⟨rgn, -1, by rw [addToTable, if_pos (by omega)], h, hf, .inr ⟨rfl, rfl, ?_, ?_⟩⟩
      · have := h.cnt_le
        omega
      · exact fun k hk => (hn k (Nat.zero_le k) hk).2
  | below j hj hjb =>
    obtain ⟨ho, hl, hcov⟩ := joined_spec h hf hs hb ha hj
      (p := ⟨base, (rgn.region j).size + size⟩) rfl (.inl ⟨hjb, rfl⟩)
    obtain ⟨rgn', ret, he, ho', hl', hr, hc'⟩ := hfin j _ ho hl hcov
    exact ⟨rgn', ret, he, ho', hl', .inl ⟨hr, hc'⟩⟩
  | above j hj hja =>
    obtain ⟨ho, hl, hcov⟩ := joined_spec h hf hs hb ha hj
      (p := ⟨(rgn.region j).base, (rgn.region j).size + size⟩) rfl (.inr ⟨hja, rfl⟩)
    obtain ⟨rgn', ret, he, ho', hl', hr, hc'⟩ := hfin j _ ho hl hcov
    exact ⟨rgn', ret, he, ho', hl', .inl ⟨hr, hc'⟩⟩

end

section

variable {rgn : MemblockRegion}

structure MemblockRegion.Good (rgn : MemblockRegion) : Prop where
  ordered : rgn.Ordered
  filled : rgn.Filled

/-- Where the stale entries of an emptied table do not spoil an addition. -/
def AddOk (rgn : MemblockRegion) (base size : ℕ) : Prop :=
  rgn.cnt = 0 → memblockRegionsAdjacent rgn 0 1 = 0
    ∧ (base < (rgn.region 0).base ∨ rgn.region 0 = ⟨base, size⟩)

/-- Where a removal does not need an entry more than the table has, and a range that wraps round
does not pass for part of an entry. -/
structure RemoveOk (rgn : MemblockRegion) (base size : ℕ) : Prop where
  wrap : 2 ^ 64 ≤ base + size → ∀ i < rgn.cnt, ¬ ((rgn.region i).base ≤ base
    ∧ addMod 64 base size ≤ (rgn.region i).base + (rgn.region i).size)
  full : rgn.cnt = maxMemblockRegions → 0 < size → ∀ i < rgn.cnt,
    ¬ ((rgn.region i).base < base ∧ base + size < (rgn.region i).base + (rgn.region i).size)

variable {L}

variable {base i size : ℕ}

lemma memblockAddRegion_good (h : rgn.Good)
    (hs : 0 < size) (hb : base + size < 2 ^ 64)
    (ha : Disjoint rgn.covers (Set.Ico base (base + size))) (hok : AddOk rgn base size) :
    ∃ rgn' ret, memblockAddRegion L rgn base size = some (rgn', ret) ∧ rgn'.Good
      ∧ (0 ≤ ret ∧ rgn'.covers = rgn.covers ∪ Set.Ico base (base + size)
        ∨ ret < 0 ∧ rgn' = rgn) := by
  obtain ⟨ho, hf⟩ := h
  by_cases h0 : rgn.cnt = 0
  · obtain ⟨hadj, hreg⟩ := hok h0
    have hnew : ∃ region', memblockAddRegion L rgn base size = some (⟨1, region'⟩, 0)
        ∧ region' 0 = ⟨base, size⟩ := by
      rw [memblockAddRegion, if_neg (by omega), h0, tryCoalesce]
      simp only [hadj, ne_eq, not_true_eq_false, and_false, ↓reduceIte, addToTable, h0,
        insertSorted]
      rw [if_neg (by simp [maxMemblockRegions])]
      refine ⟨_, rfl, ?_⟩
      split_ifs with hlt
      · rw [update_self]
      · exact hreg.resolve_left hlt
    obtain ⟨region', he, hr⟩ := hnew
    refine ⟨_, 0, he, ⟨⟨by simp [maxMemblockRegions], fun k hk => ?_, fun j k hjk hk => ?_⟩,
      Or.inr fun k hk => ?_⟩, .inl ⟨le_rfl, ?_⟩⟩
    · obtain rfl : k = 0 := by simpa using hk
      simpa [hr] using hb
    · simp only [] at hk
      omega
    · obtain rfl : k = 0 := by simpa using hk
      simpa [hr] using hs
    · ext a
      simp [MemblockRegion.mem_covers, h0, hr, MemblockProperty.mem_addrs]
  · rcases hf with ⟨hc1, hz⟩ | hf
    · refine ⟨rgn.set 0 ⟨base, size⟩, 0, ?_, ⟨?_, ?_⟩, .inl ⟨le_rfl, ?_⟩⟩
      · rw [memblockAddRegion, if_pos ⟨hc1, by rw [hz]⟩]
      · exact ho.set hb (by omega) (by omega)
      · right
        intro k hk
        rw [MemblockRegion.set_cnt, hc1] at hk
        obtain rfl : k = 0 := by omega
        simpa using hs
      · ext a
        rw [MemblockRegion.mem_covers_set (by omega), Set.mem_union,
          MemblockRegion.mem_covers_split (i := 0) (by omega), hz]
        have hno : ¬ ∃ k < rgn.cnt, k ≠ 0 ∧ a ∈ (rgn.region k).addrs := by
          rintro ⟨k, hk, hk0, -⟩
          omega
        rw [or_iff_left hno, or_iff_left hno, or_iff_right (by simp [MemblockProperty.mem_addrs])]
        rfl
    · have hap : rgn.Apart base size := by
        intro i hi
        by_contra hcon
        push Not at hcon
        refine Set.disjoint_left.1 ha (show max base (rgn.region i).base ∈ _ from ⟨i, hi, ?_⟩) ?_
        · have := hf i hi
          rw [MemblockProperty.mem_addrs]
          omega
        · rw [Set.mem_Ico]
          omega
      obtain ⟨rgn', ret, he, ho', hl', hr⟩ :=
        memblockAddRegion_live (L := L) ho hf _ _ hs hb hap (by omega)
      refine ⟨rgn', ret, he, ⟨ho', .inr hl'⟩, ?_⟩
      rcases hr with hr | ⟨rfl, hr, -⟩
      · exact .inl hr
      · exact .inr ⟨by omega, hr⟩

lemma findRegion_spec (rgn : MemblockRegion) (base fin : ℕ) : ∀ n i, i + n = rgn.cnt →
    findRegion rgn base fin n i = none ∨ ∃ j < rgn.cnt, findRegion rgn base fin n i = some j
      ∧ (rgn.region j).base ≤ base ∧ fin ≤ addMod 64 (rgn.region j).base (rgn.region j).size
  | 0, i, _ => Or.inl rfl
  | n + 1, i, hi => by
    rw [findRegion]
    split_ifs with hin
    · exact .inr ⟨i, by omega, rfl, hin⟩
    · exact findRegion_spec rgn base fin n (i + 1) (by omega)

lemma MemblockRegion.Ordered.not_mem (h : rgn.Ordered) {k a : ℕ}
    (hi : i < rgn.cnt) (hk : k < rgn.cnt) (hne : k ≠ i) (ha : a ∈ (rgn.region k).addrs) :
    a ∉ (rgn.region i).addrs := by
  intro ha'
  rw [MemblockProperty.mem_addrs] at ha ha'
  rcases lt_or_gt_of_ne hne with hlt | hgt
  · have := h.sorted k i hlt hi
    omega
  · have := h.sorted i k hgt hk
    omega

lemma MemblockRegion.Ordered.covers_cut (h : rgn.Ordered)
    (hi : i < rgn.cnt) {fin : ℕ} (hbase : (rgn.region i).base ≤ base)
    (hfin : fin ≤ (rgn.region i).base + (rgn.region i).size) {s : Set ℕ}
    (hs : ∀ a, a ∈ s ↔ (a ∈ (rgn.region i).addrs ∧ a ∉ Set.Ico base fin)
      ∨ ∃ k < rgn.cnt, k ≠ i ∧ a ∈ (rgn.region k).addrs) :
    s = rgn.covers \ Set.Ico base fin := by
  ext a
  rw [hs a, Set.mem_sdiff, MemblockRegion.mem_covers_split hi]
  constructor
  · rintro (⟨ha, hn⟩ | ⟨k, hk, hne, ha⟩)
    · exact ⟨.inl ha, hn⟩
    · refine ⟨.inr ⟨k, hk, hne, ha⟩, fun hin => h.not_mem hi hk hne ha ?_⟩
      rw [Set.mem_Ico] at hin
      rw [MemblockProperty.mem_addrs]
      omega
  · rintro ⟨ha | hk, hn⟩
    · exact .inl ⟨ha, hn⟩
    · exact .inr hk

lemma rawMemblockRemove_split (h : rgn.Ordered)
    (hf : ∀ i < rgn.cnt, 0 < (rgn.region i).size) (base size : ℕ) (hi : i < rgn.cnt)
    (hlo : (rgn.region i).base < base)
    (hhi : base + size < (rgn.region i).base + (rgn.region i).size)
    (hok : RemoveOk rgn base size) :
    ∃ rgn' ret, memblockAddRegion L (rgn.set i ⟨(rgn.region i).base, base - (rgn.region i).base⟩)
        (base + size) ((rgn.region i).base + (rgn.region i).size - (base + size)) = some (rgn', ret)
      ∧ rgn'.Good ∧ 0 ≤ ret ∧ rgn'.covers = rgn.covers \ Set.Ico base (base + size) := by
  have hbi := h.below i hi
  set p : MemblockProperty := ⟨(rgn.region i).base, base - (rgn.region i).base⟩ with hp
  have ho : (rgn.set i p).Ordered := h.trim hi le_rfl (by simp only [hp]; omega)
  have hl := MemblockRegion.filled_set hf (i := i) (p := p) (by simp only [hp]; omega)
  have hap : (rgn.set i p).Apart (base + size)
      ((rgn.region i).base + (rgn.region i).size - (base + size)) := by
    intro k hk
    rcases lt_trichotomy k i with hki | rfl | hki
    · rw [MemblockRegion.set_region_ne _ _ (by omega)]
      have := h.sorted k i hki hi
      omega
    · rw [MemblockRegion.set_region_self]
      simp only [hp]
      omega
    · rw [MemblockRegion.set_region_ne _ _ (by omega)]
      have := h.sorted i k hki hk
      omega
  obtain ⟨rgn', ret, he, ho', hl', hr⟩ := memblockAddRegion_live (L := L) ho hl
    (base + size) ((rgn.region i).base + (rgn.region i).size - (base + size))
    (by omega) (by omega) hap (by rw [MemblockRegion.set_cnt]; omega)
  refine ⟨rgn', ret, he, ⟨ho', .inr hl'⟩, ?_⟩
  rcases hr with ⟨hret, hcov⟩ | ⟨-, -, hfull, hno⟩
  · refine ⟨hret, h.covers_cut hi (by omega) (by omega) fun a => ?_⟩
    rw [hcov, Set.mem_union, MemblockRegion.mem_covers_set hi, or_right_comm]
    refine or_congr ?_ Iff.rfl
    simp only [MemblockProperty.mem_addrs, Set.mem_Ico, hp]
    omega
  · exfalso
    have hno' := hno i hi
    rw [MemblockRegion.set_region_self] at hno'
    simp only [hp] at hno'
    exact hok.full hfull (by omega) i hi ⟨hlo, hhi⟩

lemma rawMemblockRemove_trim (h : rgn.Ordered)
    (hf : ∀ i < rgn.cnt, 0 < (rgn.region i).size) (hi : i < rgn.cnt)
    (hlo : (rgn.region i).base ≤ base)
    (hhi : base + size ≤ (rgn.region i).base + (rgn.region i).size) {p : MemblockProperty}
    (hp : 0 < p.size) (hpl : (rgn.region i).base ≤ p.base)
    (hph : p.base + p.size ≤ (rgn.region i).base + (rgn.region i).size)
    (hrest : ∀ a, a ∈ p.addrs ↔ a ∈ (rgn.region i).addrs ∧ a ∉ Set.Ico base (base + size)) :
    (rgn.set i p).Good ∧ (rgn.set i p).covers = rgn.covers \ Set.Ico base (base + size) := by
  refine ⟨⟨h.trim hi hpl hph, .inr (MemblockRegion.filled_set hf hp)⟩, ?_⟩
  refine h.covers_cut hi hlo hhi fun a => ?_
  rw [MemblockRegion.mem_covers_set hi, hrest a]

lemma rawMemblockRemove_good (h : rgn.Good) (hok : RemoveOk rgn base size) :
    ∃ rgn' ret, rawMemblockRemove L rgn base size = some (rgn', ret) ∧ rgn'.Good
      ∧ (0 ≤ ret ∧ rgn'.covers = rgn.covers \ Set.Ico base (base + size) ∨ ret < 0
      ∧ rgn' = rgn) := by
  have hg := h
  obtain ⟨ho, hf⟩ := h
  rw [rawMemblockRemove]
  by_cases hb : base + size < 2 ^ 64
  swap
  · rcases findRegion_spec rgn base (addMod 64 base size) rgn.cnt 0 (by omega) with
      hn | ⟨i, hi, -, h1, h2⟩
    · rw [hn]
      exact ⟨rgn, -1, rfl, hg, .inr ⟨by omega, rfl⟩⟩
    · rw [addMod_of_lt (ho.below i hi)] at h2
      exact absurd ⟨h1, h2⟩ (hok.wrap (by omega) i hi)
  rw [addMod_of_lt hb]
  rcases findRegion_spec rgn base (base + size) rgn.cnt 0 (by omega) with hn | ⟨i, hi, hs, h1, h2⟩
  · rw [hn]
    exact ⟨rgn, -1, rfl, hg, .inr ⟨by omega, rfl⟩⟩
  have hbi := ho.below i hi
  rw [addMod_of_lt hbi] at h2
  rw [hs]
  simp only [addMod_of_lt hbi]
  split_ifs with hw hfr hen
  · obtain ⟨rgn', he, ho', hc', hent, hcov⟩ := memblockRemoveRegion_spec (L := L) ho hi
    refine ⟨rgn', 0, by rw [he]; rfl, ⟨ho', .inr fun k hk => ?_⟩, .inl ⟨le_rfl, ?_⟩⟩
    · obtain ⟨j, hj, hne, hr⟩ := hent k hk
      rcases hf with ⟨hc1, -⟩ | hf
      · omega
      · rw [hr]
        exact hf j hj
    · refine ho.covers_cut hi h1 h2 fun a => ?_
      rw [hcov a, or_iff_right]
      rw [MemblockProperty.mem_addrs, Set.mem_Ico]
      omega
  all_goals
    have hf : ∀ i < rgn.cnt, 0 < (rgn.region i).size := by
      rcases hf with ⟨hc1, hz⟩ | hf
      · obtain rfl : i = 0 := by omega
        rw [hz] at h1 h2 hw
        simp only [] at h1 h2 hw
        omega
      · exact hf
  · rw [subMod_of_le (by omega) (by omega)]
    obtain ⟨hg', hc'⟩ := rawMemblockRemove_trim (p := ⟨base + size, (rgn.region i).size - size⟩)
      ho hf hi h1 h2 (by simp only []; omega) (by simp only []; omega) (by simp only []; omega)
      fun a => by
        simp only [MemblockProperty.mem_addrs, Set.mem_Ico]
        omega
    exact ⟨_, 0, rfl, hg', .inl ⟨le_rfl, hc'⟩⟩
  · rw [subMod_of_le (by omega) (by omega)]
    obtain ⟨hg', hc'⟩ := rawMemblockRemove_trim (p := ⟨(rgn.region i).base, (rgn.region i).size - size⟩)
      ho hf hi h1 h2 (by simp only []; omega) (by simp only []; omega) (by simp only []; omega)
      fun a => by
        simp only [MemblockProperty.mem_addrs, Set.mem_Ico]
        omega
    exact ⟨_, 0, rfl, hg', .inl ⟨le_rfl, hc'⟩⟩
  · rw [subMod_of_le (by omega) (by omega), subMod_of_le (by omega) (by omega)]
    obtain ⟨rgn', ret, he, hg', hr, hc'⟩ := rawMemblockRemove_split (L := L) ho hf
      base size hi (by omega) (by omega) hok
    exact ⟨rgn', ret, he, hg', .inl ⟨hr, hc'⟩⟩

end

section

inductive MemblockCall where
  | add (base size : ℕ)
  | remove (base size : ℕ)

namespace MemblockCall

def exec : MemblockCall → Memblock → Option (Memblock × ℤ)
  | .add base size, mb => memblockAdd L mb base size
  | .remove base size, mb => memblockRemove L mb base size

def apply : MemblockCall → Set ℕ → Set ℕ
  | .add base size, s => s ∪ Set.Ico base (base + size)
  | .remove base size, s => s \ Set.Ico base (base + size)

/-- A range added is not empty, does not wrap round and meets no region. -/
def Legal (rgn : MemblockRegion) : MemblockCall → Prop
  | .add base size => 0 < size ∧ base + size < 2 ^ 64
      ∧ Disjoint rgn.covers (Set.Ico base (base + size))
  | .remove base size => base < 2 ^ 64 ∧ size < 2 ^ 64

/-- Where the call does not meet the stale entries, the full table or a range that wraps round. -/
def Ok (rgn : MemblockRegion) : MemblockCall → Prop
  | .add base size => AddOk rgn base size
  | .remove base size => RemoveOk rgn base size

end MemblockCall

/-- The tables, with the addresses of the ranges added and not removed since. -/
structure MemblockRun where
  mb : Memblock
  added : Set ℕ

inductive MemblockStep (P : MemblockRegion → MemblockCall → Prop) :
    MemblockRun → MemblockRun → Prop
  | call {s : MemblockRun} (c : MemblockCall) {mb : Memblock} {ret : ℤ}
      (legal : c.Legal s.mb.memory) (ok : P s.mb.memory c) (exec : c.exec L s.mb = some (mb, ret)) :
      MemblockStep P s ⟨mb, {a | if 0 ≤ ret then a ∈ c.apply s.added else a ∈ s.added}⟩

/-- From `memblock_init` on, nothing added yet. -/
def MemblockRun.start (mb : Memblock) : MemblockRun := ⟨memblockInit mb, ∅⟩

lemma memblockInit_good (mb : Memblock) : (memblockInit mb).memory.Good where
  ordered := by
    refine ⟨by simp [memblockInit, maxMemblockRegions], fun i hi => ?_, fun i j hij hj => ?_⟩
    · obtain rfl : i = 0 := by simpa [memblockInit] using hi
      simp [memblockInit]
    · simp only [memblockInit] at hj
      omega
  filled := Or.inl ⟨rfl, by simp [memblockInit]⟩

lemma memblockInit_covers (mb : Memblock) : (memblockInit mb).memory.covers = ∅ := by
  ext a
  simp [MemblockRegion.mem_covers, memblockInit, MemblockProperty.mem_addrs]

variable {L}

lemma MemblockCall.exec_good {mb : Memblock} (h : mb.memory.Good) {c : MemblockCall}
    (hl : c.Legal mb.memory) (hok : c.Ok mb.memory) :
    ∃ mb' ret, c.exec L mb = some (mb', ret) ∧ mb'.memory.Good
      ∧ (0 ≤ ret ∧ mb'.memory.covers = c.apply mb.memory.covers
        ∨ ret < 0 ∧ mb'.memory = mb.memory) := by
  cases c with
  | add base size =>
    obtain ⟨hs, hb, hd⟩ := hl
    obtain ⟨rgn', ret, he, hg, hr⟩ := memblockAddRegion_good (L := L) h hs hb hd hok
    refine ⟨⟨if base = 0 then size else mb.rmoSize, rgn', mb.reserved⟩, ret, ?_, hg, hr⟩
    simp only [exec, memblockAdd]
    split_ifs <;> simp [he]
  | remove base size =>
    obtain ⟨rgn', ret, he, hg, hr⟩ := rawMemblockRemove_good (L := L) h hok
    exact ⟨{ mb with memory := rgn' }, ret, by simp [exec, memblockRemove, he], hg, hr⟩

lemma memblockRun_inv (mb : Memblock) {s : MemblockRun}
    (h : Relation.ReflTransGen (MemblockStep L MemblockCall.Ok) (.start mb) s) :
    s.mb.memory.Good ∧ s.mb.memory.covers = s.added := by
  induction h with
  | refl => exact ⟨memblockInit_good mb, memblockInit_covers mb⟩
  | tail _ hstep ih =>
    obtain ⟨hg, hc⟩ := ih
    cases hstep with
    | call c hl hok he =>
      obtain ⟨mb', ret, he', hg', hr⟩ := c.exec_good (L := L) hg hl hok
      obtain ⟨rfl, rfl⟩ : mb' = _ ∧ ret = _ := by simpa [he] using he'.symm
      refine ⟨hg', ?_⟩
      rcases hr with ⟨hret, hcov⟩ | ⟨hret, hmem⟩
      · simp [hret, hcov, hc]
      · simp [not_le.2 hret, hmem, hc]

/-- In a run whose calls are all `Ok`, the entries in use are in ascending order and disjoint, they
cover what was added and not removed, and the next `Ok` call returns. -/
theorem memblock_table_exact (mb : Memblock) {s : MemblockRun}
    (h : Relation.ReflTransGen (MemblockStep L MemblockCall.Ok) (.start mb) s) :
    (∀ i j, i < j → j < s.mb.memory.cnt → (s.mb.memory.region i).base < (s.mb.memory.region j).base
        ∧ Disjoint (s.mb.memory.region i).addrs (s.mb.memory.region j).addrs)
      ∧ s.mb.memory.covers = s.added ∧ ∀ c : MemblockCall, c.Legal s.mb.memory → c.Ok s.mb.memory →
        ∃ r, c.exec L s.mb = some r := by
  obtain ⟨hg, hc⟩ := memblockRun_inv mb h
  refine ⟨fun i j hij hj => ⟨?_, ?_⟩, hc, fun c hl hok => ?_⟩
  · rcases hg.filled with ⟨h1, -⟩ | hf
    · omega
    · have := hg.ordered.sorted i j hij hj
      have := hf i (by omega)
      omega
  · rw [Set.disjoint_left]
    exact fun a ha => hg.ordered.not_mem hj (by omega) (by omega) ha
  · obtain ⟨mb', ret, he, -⟩ := c.exec_good (L := L) hg hl hok
    exact ⟨_, he⟩

/-- A table in use up to its last non-zero entry, with an empty table of reserved regions. -/
def memblockOf (rmoSize : ℕ) (cnt : ℕ) (region : ℕ → MemblockProperty) : Memblock :=
  ⟨rmoSize, ⟨cnt, region⟩, ⟨1, Function.update (fun _ => ⟨0, 0⟩) 0 ⟨0, 0⟩⟩⟩

/-- The tables before `memblock_init`: all zero. -/
def zeroMemblock : Memblock := ⟨0, ⟨0, fun _ => ⟨0, 0⟩⟩, ⟨0, fun _ => ⟨0, 0⟩⟩⟩

lemma MemblockRun.start_disjoint (base size : ℕ) :
    Disjoint (MemblockRun.start zeroMemblock).mb.memory.covers (Set.Ico base (base + size)) := by
  rw [MemblockRun.start, memblockInit_covers]
  exact Set.empty_disjoint _

theorem memblock_table_exact_hole : ∃ s : MemblockRun,
    Relation.ReflTransGen (MemblockStep .long64 MemblockCall.Ok) (.start zeroMemblock) s
      ∧ s.mb.memory.cnt = 2 ∧ s.mb.memory.covers = Set.Ico 0 4096 \ Set.Ico 1024 2048 := by
  let region := Function.update (Function.update (fun _ : ℕ => (⟨0, 0⟩ : MemblockProperty)) 0
    ⟨0, 0⟩) 0 ⟨0, 4096⟩
  have e1 : MemblockCall.exec .long64 (.add 0 4096) (memblockInit zeroMemblock)
      = some (memblockOf 4096 1 region, 0) := rfl
  have e2 : MemblockCall.exec .long64 (.remove 1024 1024) (memblockOf 4096 1 region)
      = some (memblockOf 4096 2 (Function.update (Function.update region 0 ⟨0, 1024⟩) 1
        ⟨2048, 2048⟩), 0) := by
    simp [MemblockCall.exec, memblockRemove, rawMemblockRemove, findRegion, memblockOf, region,
      addMod, subMod, memblockAddRegion, tryCoalesce, memblockAddrsAdjacent, MemblockRegion.set,
      insertSorted, addToTable, maxMemblockRegions, LongSize.bits]
  have h1 := Relation.ReflTransGen.single (MemblockStep.call (P := MemblockCall.Ok)
    (s := .start zeroMemblock) (.add 0 4096) ⟨by omega, by omega, MemblockRun.start_disjoint 0 4096⟩
    (fun h => absurd h one_ne_zero) e1)
  have h2 := h1.tail (MemblockStep.call (.remove 1024 1024) ⟨by omega, by omega⟩
    ⟨by omega, fun h => absurd h (by simp [memblockOf, maxMemblockRegions])⟩ e2)
  refine ⟨_, h2, rfl, (memblock_table_exact zeroMemblock h2).2.1.trans ?_⟩
  ext a
  simp [MemblockCall.apply, MemblockRun.start]

/-- With the last region removed, a range added above it is lost and the removed one comes back. -/
theorem memblock_table_emptied : ∃ s : MemblockRun,
    Relation.ReflTransGen (MemblockStep .long64 fun _ _ => True) (.start zeroMemblock) s
      ∧ 8192 ∈ s.added ∧ 8192 ∉ s.mb.memory.covers
      ∧ 4096 ∉ s.added ∧ 4096 ∈ s.mb.memory.covers := by
  let region := Function.update (Function.update (fun _ : ℕ => (⟨0, 0⟩ : MemblockProperty)) 0
    ⟨0, 0⟩) 0 ⟨4096, 4096⟩
  have e1 : MemblockCall.exec .long64 (.add 4096 4096) (memblockInit zeroMemblock)
      = some (memblockOf 0 1 region, 0) := rfl
  have e2 : MemblockCall.exec .long64 (.remove 4096 4096) (memblockOf 0 1 region)
      = some (memblockOf 0 0 region, 0) := by
    simp [MemblockCall.exec, memblockRemove, rawMemblockRemove, findRegion, memblockOf, region,
      addMod, subMod, memblockRemoveRegion, shiftDown, LongSize.bits]
  have e3 : MemblockCall.exec .long64 (.add 8192 4096) (memblockOf 0 0 region)
      = some (memblockOf 0 1 region, 0) := by
    simp [MemblockCall.exec, memblockAdd, memblockAddRegion, memblockOf, region, addMod, subMod,
      tryCoalesce, memblockRegionsAdjacent, memblockAddrsAdjacent, insertSorted, addToTable,
      maxMemblockRegions, LongSize.bits]
  have h1 := Relation.ReflTransGen.single (MemblockStep.call (P := fun _ _ => True)
    (s := .start zeroMemblock) (.add 4096 4096)
    ⟨by omega, by omega, MemblockRun.start_disjoint 4096 4096⟩ trivial e1)
  have h2 := h1.tail (.call (.remove 4096 4096) ⟨by omega, by omega⟩ trivial e2)
  have h3 := h2.tail (.call (.add 8192 4096) ⟨by omega, by omega, by
    rw [Set.disjoint_left]
    rintro a ⟨i, hi, -⟩
    exact absurd hi (Nat.not_lt_zero i)⟩ trivial e3)
  have hcov : ∀ a, a ∈ (memblockOf 0 1 region).memory.covers ↔ 4096 ≤ a ∧ a < 8192 := by
    simp [MemblockRegion.mem_covers, memblockOf, region, MemblockProperty.mem_addrs]
  refine ⟨_, h3, by simp [MemblockCall.apply], ?_, by simp [MemblockCall.apply], ?_⟩
  · rw [hcov]
    omega
  · rw [hcov]
    omega

end

section

variable {L}

variable {base size : ℕ} {rgn rgn' : MemblockRegion}

lemma tryCoalesce_cnt :
    ∀ {n i j c : ℕ}, tryCoalesce rgn base size n i = some (rgn', j, c) → rgn'.cnt = rgn.cnt
  | 0, i, j, c, h => by
    obtain ⟨rfl, -, -⟩ := Prod.mk.inj (Option.some.inj h)
    rfl
  | n + 1, i, j, c, h => by
    rw [tryCoalesce] at h
    split_ifs at h
    · obtain ⟨rfl, -⟩ := Prod.mk.inj (Option.some.inj h)
      rfl
    · obtain ⟨rfl, -⟩ := Prod.mk.inj (Option.some.inj h)
      rfl
    · exact tryCoalesce_cnt h

lemma memblockAddRegion_fail {ret : ℤ}
    (h : memblockAddRegion L rgn base size = some (rgn', ret)) (hret : ret < 0) :
    maxMemblockRegions ≤ rgn.cnt := by
  rw [memblockAddRegion] at h
  split_ifs at h
  · obtain ⟨-, rfl⟩ := Prod.mk.inj (Option.some.inj h)
    omega
  cases htry : tryCoalesce rgn base size rgn.cnt 0 with
  | none =>
    rw [htry] at h
    obtain ⟨-, rfl⟩ := Prod.mk.inj (Option.some.inj h)
    omega
  | some r =>
    obtain ⟨rgn₁, i, c⟩ := r
    rw [htry] at h
    have hcnt := tryCoalesce_cnt htry
    simp only at h
    split_ifs at h
    · obtain ⟨r, -, heq⟩ := Option.map_eq_some_iff.mp h
      obtain ⟨-, rfl⟩ := Prod.mk.inj heq
      omega
    · obtain ⟨-, rfl⟩ := Prod.mk.inj (Option.some.inj h)
      omega
    · rw [addToTable] at h
      split_ifs at h with hfull
      · rwa [hcnt] at hfull
      · obtain ⟨-, rfl⟩ := Prod.mk.inj (Option.some.inj h)
        omega

/-- The range lies inside an entry, with addresses of the entry left over on both sides. -/
def SplitsEntry (rgn : MemblockRegion) (base size : ℕ) : Prop :=
  ∃ i < rgn.cnt, (rgn.region i).base < base ∧
    addMod 64 base size < addMod 64 (rgn.region i).base (rgn.region i).size

lemma rawMemblockRemove_fail (hroom : rgn.cnt < maxMemblockRegions ∨ ¬ SplitsEntry rgn base size)
    (h : rawMemblockRemove L rgn base size = some (rgn', -1)) : rgn' = rgn := by
  rw [rawMemblockRemove] at h
  simp only at h
  rcases findRegion_spec rgn base (addMod 64 base size) rgn.cnt 0 (by omega) with
    hfind | ⟨i, hi, hfind, hlow, hhigh⟩
  · rw [hfind] at h
    exact (Prod.mk.inj (Option.some.inj h)).1.symm
  rw [hfind] at h
  simp only at h
  split_ifs at h with h1 h2 h3
  · obtain ⟨r, -, heq⟩ := Option.map_eq_some_iff.mp h
    exact absurd (Prod.mk.inj heq).2 (by omega)
  · exact absurd (Prod.mk.inj (Option.some.inj h)).2 (by omega)
  · exact absurd (Prod.mk.inj (Option.some.inj h)).2 (by omega)
  · have hfull := memblockAddRegion_fail h (by omega)
    rw [MemblockRegion.set_cnt] at hfull
    rcases hroom with hroom | hroom
    · omega
    · exact (hroom ⟨i, by omega, by omega, by omega⟩).elim

lemma tryCoalesce_apart {rgn : MemblockRegion} : ∀ {n i : ℕ},
    (∀ k < i + n, rgn.region k ≠ ⟨base, size⟩
      ∧ memblockAddrsAdjacent base size (rgn.region k).base (rgn.region k).size = 0) →
    tryCoalesce rgn base size n i = some (rgn, i + n, 0)
  | 0, _, _ => rfl
  | n + 1, i, h => by
    obtain ⟨hne, hadj⟩ := h i (by omega)
    have hne' : ¬ ((rgn.region i).base = base ∧ (rgn.region i).size = size) := by
      rintro ⟨rfl, rfl⟩
      exact hne rfl
    rw [tryCoalesce]
    simp only [hadj, if_neg hne', lt_irrefl, if_false]
    rw [tryCoalesce_apart fun k hk => h k (by omega), add_right_comm, add_assoc]

end

end LinuxKernel.Mm
