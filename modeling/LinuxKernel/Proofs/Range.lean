import LinuxKernel.Range

/-!
# Adding and subtracting ranges

A range that is added is merged with the first range it touches and with no other, so the ranges
stay disjoint when the new one overlaps none behind that one. Only one range can have the subtracted
one inside it, so one free slot is enough.
-/

namespace LinuxKernel.Kernel

open Function

def Range.points (p : Range) : Set ℕ := Set.Ico p.start p.fin

def covered (range : Ranges) (az : ℕ) : Set ℕ := {x | ∃ i < az, x ∈ (range i).points}

def Range.Apart (p q : Range) : Prop :=
  p.fin = 0 ∨ q.fin = 0 ∨ p.fin ≤ q.start ∨ q.fin ≤ p.start

structure DisjointRanges (range : Ranges) (az : ℕ) : Prop where
  filled : ∀ i < az, (range i).fin = 0 ∨ (range i).start < (range i).fin
  apart : ∀ i < az, ∀ j < az, i ≠ j → (range i).Apart (range j)

lemma Range.mem_points {p : Range} {x : ℕ} : x ∈ p.points ↔ p.start ≤ x ∧ x < p.fin := Iff.rfl

def Range.Sub (p q : Range) : Prop :=
  p.fin = 0 ∨ q.start ≤ p.start ∧ p.start < p.fin ∧ p.fin ≤ q.fin

lemma Range.Sub.apart {p q r : Range} (h : p.Sub q) (hqr : q.Apart r) : p.Apart r := by
  unfold Range.Sub at h
  unfold Range.Apart at hqr ⊢
  omega

lemma Range.Apart.symm {p q : Range} (h : p.Apart q) : q.Apart p := by
  unfold Range.Apart at h ⊢
  omega

variable {range orig : Ranges} {start fin az i x nrRange : ℕ} {p : Range}

def Touches (range : Ranges) (start fin i : ℕ) : Prop :=
  (range i).fin ≠ 0 ∧ max (range i).start start ≤ min (range i).fin fin

def Overlaps (range : Ranges) (start fin i : ℕ) : Prop :=
  (range i).fin ≠ 0 ∧ max (range i).start start < min (range i).fin fin

lemma tryMerge_none : ∀ {n i : ℕ}, tryMerge range start fin n i = none →
    ∀ k, i ≤ k → k < i + n → ¬ Touches range start fin k
  | 0, i, _, k, h1, h2 => by omega
  | n + 1, i, h, k, h1, h2 => by
    rw [tryMerge] at h
    simp only at h
    split_ifs at h with hfree hcommon
    · rcases Nat.eq_or_lt_of_le h1 with rfl | h1
      · exact fun ht => ht.1 hfree
      · exact tryMerge_none h k h1 (by omega)
    · rcases Nat.eq_or_lt_of_le h1 with rfl | h1
      · exact fun ht => absurd ht.2 (not_le.mpr hcommon)
      · exact tryMerge_none h k h1 (by omega)

lemma tryMerge_some {range' : Ranges} : ∀ {n i : ℕ}, tryMerge range start fin n i = some range' →
    ∃ k, (i ≤ k ∧ k < i + n) ∧ Touches range start fin k ∧
      (∀ l, i ≤ l → l < k → ¬ Touches range start fin l) ∧
      range' = update range k ⟨min (range k).start start, max (range k).fin fin⟩
  | n + 1, i, h => by
    rw [tryMerge] at h
    simp only at h
    split_ifs at h with hfree hcommon
    · obtain ⟨k, hk, ht, hbefore, heq⟩ := tryMerge_some h
      refine ⟨k, by omega, ht, fun l h1 h2 => ?_, heq⟩
      rcases Nat.eq_or_lt_of_le h1 with rfl | h1
      · exact fun ht => ht.1 hfree
      · exact hbefore l h1 h2
    · obtain ⟨k, hk, ht, hbefore, heq⟩ := tryMerge_some h
      refine ⟨k, by omega, ht, fun l h1 h2 => ?_, heq⟩
      rcases Nat.eq_or_lt_of_le h1 with rfl | h1
      · exact fun ht => absurd ht.2 (not_le.mpr hcommon)
      · exact hbefore l h1 h2
    · exact ⟨i, by omega, ⟨hfree, not_lt.mp hcommon⟩, fun l h1 h2 => by omega,
        (Option.some.inj h).symm⟩

lemma mem_covered_update (hi : i < az) :
    x ∈ covered (update range i p) az ↔
      x ∈ p.points ∨ ∃ k < az, k ≠ i ∧ x ∈ (range k).points := by
  constructor
  · rintro ⟨k, hk, hx⟩
    by_cases hki : k = i
    · rw [hki, update_self] at hx
      exact .inl hx
    · rw [update_of_ne hki] at hx
      exact .inr ⟨k, hk, hki, hx⟩
  · rintro (hx | ⟨k, hk, hki, hx⟩)
    · exact ⟨i, hi, by rwa [update_self]⟩
    · exact ⟨k, hk, by rwa [update_of_ne hki]⟩

lemma mem_covered_split (hi : i < az) :
    x ∈ covered range az ↔ x ∈ (range i).points ∨ ∃ k < az, k ≠ i ∧ x ∈ (range k).points := by
  rw [← mem_covered_update hi, update_eq_self]

lemma DisjointRanges.update (h : DisjointRanges range az)
    (hp : p.start < p.fin) (hap : ∀ k < az, k ≠ i → p.Apart (range k)) :
    DisjointRanges (update range i p) az := by
  refine ⟨fun k hk => ?_, fun k hk l hl hkl => ?_⟩
  · by_cases hki : k = i
    · rw [hki, update_self]
      exact .inr hp
    · rw [update_of_ne hki]
      exact h.filled k hk
  by_cases hki : k = i
  · subst hki
    rw [update_self, update_of_ne hkl.symm]
    exact hap l hl hkl.symm
  by_cases hli : l = i
  · subst hli
    rw [update_self, update_of_ne hki]
    exact (hap k hk hki).symm
  · rw [update_of_ne hki, update_of_ne hli]
    exact h.apart k hk l hl hkl

lemma addRangeWithMerge_spec (h : DisjointRanges range az) (hlt : start < fin)
    (hnr : nrRange < az) (hfree : ∀ i, nrRange ≤ i → i < az → (range i).fin = 0) :
    covered (addRangeWithMerge range az nrRange start fin).1 az =
        covered range az ∪ Set.Ico start fin ∧
      ((∀ i j, i < j → j < nrRange → Touches range start fin i → ¬ Overlaps range start fin j) →
        DisjointRanges (addRangeWithMerge range az nrRange start fin).1 az) := by
  rw [addRangeWithMerge, if_neg (by omega)]
  cases hmerge : tryMerge range start fin nrRange 0 with
  | some range' =>
    obtain ⟨i, hi, ht, hbefore, rfl⟩ := tryMerge_some hmerge
    have hi' : i < az := by omega
    obtain ⟨hne, htouch⟩ := ht
    simp only
    have hfill := (h.filled i hi').resolve_left hne
    refine ⟨?_, fun hcond => h.update (show min _ _ < max _ _ by omega) fun k hk hki => ?_⟩
    · ext x
      rw [mem_covered_update hi', Set.mem_union, mem_covered_split hi']
      have hpoints : x ∈ (⟨min (range i).start start, max (range i).fin fin⟩ : Range).points ↔
          x ∈ (range i).points ∨ x ∈ Set.Ico start fin := by
        simp only [Range.mem_points, Set.mem_Ico]
        omega
      rw [hpoints, or_right_comm]
    · have hap := h.apart i hi' k hk hki.symm
      have hno : (range k).fin ≠ 0 → ¬ max (range k).start start < min (range k).fin fin := by
        intro hk0 hover
        rcases Nat.lt_or_gt_of_ne hki with hlt' | hgt
        · exact hbefore k (Nat.zero_le k) hlt' ⟨hk0, hover.le⟩
        · rcases lt_or_ge k nrRange with hkn | hkn
          · exact hcond i k hgt hkn ⟨hne, htouch⟩ ⟨hk0, hover⟩
          · exact hk0 (hfree k hkn hk)
      have hfk := h.filled k hk
      unfold Range.Apart at hap ⊢
      simp only
      omega
  | none =>
    have hnone := tryMerge_none hmerge
    have hz := hfree nrRange le_rfl hnr
    simp only [addRange, if_neg (not_le.mpr hlt), if_neg (not_le.mpr hnr)]
    refine ⟨?_, fun _ => h.update hlt fun k hk hki => ?_⟩
    · ext x
      rw [mem_covered_update hnr, Set.mem_union, mem_covered_split hnr]
      have hpoints : x ∉ (range nrRange).points := by
        rw [Range.mem_points]
        omega
      have hnew : x ∈ (⟨start, fin⟩ : Range).points ↔ x ∈ Set.Ico start fin := Iff.rfl
      rw [hnew, or_iff_right hpoints, or_comm]
    · by_cases hk0 : (range k).fin = 0
      · exact .inr (.inl hk0)
      · have hkn : k < nrRange := by
          by_contra hge
          exact hk0 (hfree k (by omega) hk)
        have hnt := hnone k (Nat.zero_le k) (by omega)
        have hapart : ¬ max (range k).start start ≤ min (range k).fin fin :=
          fun hle => hnt ⟨hk0, hle⟩
        have hfk := h.filled k hk
        unfold Range.Apart
        simp only
        omega

lemma findSpare_some : ∀ {n i s : ℕ}, findSpare range n i = some s →
    s < i + n ∧ (range s).fin = 0
  | n + 1, i, s, h => by
    rw [findSpare] at h
    split_ifs at h with hfree
    · obtain rfl := Option.some.inj h
      exact ⟨by omega, hfree⟩
    · obtain ⟨h1, h2⟩ := findSpare_some h
      exact ⟨by omega, h2⟩

lemma findSpare_none : ∀ {n i : ℕ}, findSpare range n i = none →
    ∀ s, i ≤ s → s < i + n → (range s).fin ≠ 0
  | 0, i, _, s, h1, h2 => by omega
  | n + 1, i, h, s, h1, h2 => by
    rw [findSpare] at h
    split_ifs at h with hfree
    rcases Nat.eq_or_lt_of_le h1 with rfl | h1
    · exact hfree
    · exact findSpare_none h s h1 (by omega)

def Range.Around (p : Range) (start fin : ℕ) : Prop :=
  p.fin ≠ 0 ∧ p.start < start ∧ fin < p.fin

/-- What holds before slot `j` is cut: the slots below have nothing of the subtracted range, the
rest of what was covered still is, and there is a free slot if one is still needed. -/
structure Cutting (orig : Ranges) (start fin az j : ℕ) (range : Ranges) : Prop where
  ranges : DisjointRanges range az
  done : ∀ i < az, i < j → (range i).Apart ⟨start, fin⟩
  kept : ∀ x, ¬ (start ≤ x ∧ x < fin) → (x ∈ covered range az ↔ x ∈ covered orig az)
  spare : (∃ i < az, (range i).fin = 0) ∨ ∀ i < az, ¬ (range i).Around start fin

/-- Slot `j` becomes `p`, a part of it, and slot `i`, which is free unless it is `j`, becomes
another part. -/
lemma Cutting.cut {j : ℕ} (h : Cutting orig start fin az j range)
    (hlt : start < fin) (hj : j < az) (hi : i < az) (hfree : i ≠ j → (range i).fin = 0)
    (hne : (range j).fin ≠ 0) {q : Range} (hp : p.Sub (range j)) (hq : q.Sub (range j))
    (hpq : p.Apart q) (hpc : p.Apart ⟨start, fin⟩) (hqc : q.Apart ⟨start, fin⟩)
    (hx : ∀ x, ¬ (start ≤ x ∧ x < fin) → x ∈ (range j).points → x ∈ p.points ∨ i ≠ j ∧ x ∈ q.points)
    (hspare : (∃ k < az, k ≠ j ∧ k ≠ i ∧ (range k).fin = 0) ∨ p.fin = 0 ∨
      ∀ k < az, k ≠ j → ¬ (range k).Around start fin) :
    Cutting orig start fin az (j + 1) (update (update range i q) j p) := by
  set range' := update (update range i q) j p with hr
  have hself : range' j = p := update_self ..
  have hnew : ∀ k, k = i → k ≠ j → range' k = q := fun k h1 h2 => by
    rw [hr, update_of_ne h2, h1, update_self]
  have hold : ∀ k, k ≠ i → k ≠ j → range' k = range k := fun k h1 h2 => by
    rw [hr, update_of_ne h2, update_of_ne h1]
  -- every slot is `p`, `q` or as it was
  have hcases : ∀ k, k = j ∧ range' k = p ∨ (k = i ∧ k ≠ j) ∧ range' k = q ∨
      (k ≠ i ∧ k ≠ j) ∧ range' k = range k := by
    intro k
    by_cases hkj : k = j
    · exact .inl ⟨hkj, hkj ▸ hself⟩
    · by_cases hki : k = i
      · exact .inr (.inl ⟨⟨hki, hkj⟩, hnew k hki hkj⟩)
      · exact .inr (.inr ⟨⟨hki, hkj⟩, hold k hki hkj⟩)
  refine ⟨⟨fun k hk => ?_, fun k hk l hl hkl => ?_⟩, fun k hk hkj => ?_, fun x hout => ?_, ?_⟩
  · rcases hcases k with ⟨-, he⟩ | ⟨-, he⟩ | ⟨-, he⟩
    · rw [he]
      exact hp.imp id fun hp => hp.2.1
    · rw [he]
      exact hq.imp id fun hq => hq.2.1
    · rw [he]
      exact h.ranges.filled k hk
  · rcases hcases k with ⟨hkj, he⟩ | ⟨hki, he⟩ | ⟨hko, he⟩ <;>
      rcases hcases l with ⟨hlj, he'⟩ | ⟨hli, he'⟩ | ⟨hlo, he'⟩ <;> rw [he, he']
    · exact absurd (hkj.trans hlj.symm) hkl
    · exact hpq
    · exact hp.apart (h.ranges.apart j hj l hl (Ne.symm hlo.2))
    · exact hpq.symm
    · exact absurd (hki.1.trans hli.1.symm) hkl
    · exact hq.apart (h.ranges.apart j hj l hl (Ne.symm hlo.2))
    · exact (hp.apart (h.ranges.apart j hj k hk (Ne.symm hko.2))).symm
    · exact (hq.apart (h.ranges.apart j hj k hk (Ne.symm hko.2))).symm
    · exact h.ranges.apart k hk l hl hkl
  · rcases hcases k with ⟨-, he⟩ | ⟨-, he⟩ | ⟨hko, he⟩
    · rw [he]
      exact hpc
    · rw [he]
      exact hqc
    · rw [he]
      exact h.done k hk (by omega)
  · rw [← h.kept x hout]
    have hpart : ∀ {p : Range}, p.Sub (range j) → x ∈ p.points → x ∈ (range j).points := by
      intro p hp hxp
      unfold Range.Sub at hp
      rw [Range.mem_points] at hxp ⊢
      omega
    constructor
    · rintro ⟨k, hk, hxk⟩
      rcases hcases k with ⟨-, he⟩ | ⟨-, he⟩ | ⟨-, he⟩
      · exact ⟨j, hj, hpart hp (he ▸ hxk)⟩
      · exact ⟨j, hj, hpart hq (he ▸ hxk)⟩
      · exact ⟨k, hk, he ▸ hxk⟩
    · rintro ⟨k, hk, hxk⟩
      rcases hcases k with ⟨rfl, -⟩ | ⟨hki, -⟩ | ⟨-, he⟩
      · rcases hx x hout hxk with hxp | ⟨hij, hxq⟩
        · exact ⟨k, hk, by rwa [hself]⟩
        · exact ⟨i, hi, by rwa [hnew i rfl hij]⟩
      · have hz := hfree (hki.1 ▸ hki.2)
        rw [hki.1, Range.mem_points] at hxk
        omega
      · exact ⟨k, hk, by rwa [he]⟩
  · rcases hspare with ⟨k, hk, hkj, hki, hz⟩ | hz | hnone
    · exact .inl ⟨k, hk, by rwa [hold k hki hkj]⟩
    · exact .inl ⟨j, hj, by rwa [hself]⟩
    · refine .inr fun k hk haround => ?_
      rcases hcases k with ⟨-, he⟩ | ⟨-, he⟩ | ⟨hko, he⟩
      · rw [he] at haround
        unfold Range.Around at haround
        unfold Range.Apart at hpc
        simp only at hpc
        omega
      · rw [he] at haround
        unfold Range.Around at haround
        unfold Range.Apart at hqc
        simp only at hqc
        omega
      · rw [he] at haround
        exact hnone k hk hko.2 haround

lemma Cutting.step {j : ℕ} (h : Cutting orig start fin az j range)
    (hlt : start < fin) (hj : j < az) :
    Cutting orig start fin az (j + 1) (subtractSlot range az start fin j) := by
  -- a slot that stays as it is
  have hstay : (range j).Apart ⟨start, fin⟩ → Cutting orig start fin az (j + 1) range :=
    fun hap => ⟨h.ranges, fun i hi hij => by
      rcases lt_or_ge i j with hlt | hge
      · exact h.done i hi hlt
      · rwa [show i = j by omega], h.kept, h.spare⟩
  -- a slot that is cut without a spare one
  have hcut : ∀ p : Range, (range j).fin ≠ 0 → ¬ (range j).Around start fin →
      p.Sub (range j) → p.Apart ⟨start, fin⟩ →
      (∀ x, ¬ (start ≤ x ∧ x < fin) → x ∈ (range j).points → x ∈ p.points) →
      Cutting orig start fin az (j + 1) (update range j p) := by
    intro p hne haround hp hpc hx
    have hres := h.cut hlt hj hj (fun hjj => absurd rfl hjj) hne hp (q := ⟨0, 0⟩) (.inl rfl)
      (.inr (.inl rfl)) hpc (.inl rfl) (fun x h1 h2 => Or.inl (hx x h1 h2)) (by
        rcases h.spare with ⟨k, hk, hz⟩ | hnone
        · have hkj : k ≠ j := by
            rintro rfl
            exact hne hz
          exact .inl ⟨k, hk, hkj, hkj, hz⟩
        · exact .inr (.inr fun k hk _ => hnone k hk))
    rwa [update_idem] at hres
  have hfill := h.ranges.filled j hj
  rw [subtractSlot]
  by_cases hfree : (range j).fin = 0
  · rw [if_pos hfree]
    exact hstay (.inl hfree)
  rw [if_neg hfree]
  by_cases h1 : start ≤ (range j).start ∧ (range j).fin ≤ fin
  · rw [if_pos h1]
    refine hcut _ hfree (fun ha => by unfold Range.Around at ha; omega) (.inl rfl) (.inl rfl)
      fun x hx hmem => ?_
    rw [Range.mem_points] at hmem
    omega
  rw [if_neg h1]
  by_cases h2 : start ≤ (range j).start ∧ fin < (range j).fin ∧ (range j).start < fin
  · rw [if_pos h2]
    refine hcut _ hfree (fun ha => by unfold Range.Around at ha; omega)
      (.inr (by simp only; omega)) (.inr (.inr (.inr le_rfl))) fun x hx hmem => ?_
    rw [Range.mem_points] at hmem ⊢
    simp only
    omega
  rw [if_neg h2]
  by_cases h3 : (range j).start < start ∧ (range j).fin ≤ fin ∧ start < (range j).fin
  · rw [if_pos h3]
    refine hcut _ hfree (fun ha => by unfold Range.Around at ha; omega)
      (.inr (by simp only; omega)) (.inr (.inr (.inl le_rfl))) fun x hx hmem => ?_
    rw [Range.mem_points] at hmem ⊢
    simp only
    omega
  rw [if_neg h3]
  by_cases h4 : (range j).start < start ∧ fin < (range j).fin
  · rw [if_pos h4]
    cases hspare : findSpare range az 0 with
    | none =>
      have hnone := findSpare_none hspare
      rcases h.spare with ⟨k, hk, hz⟩ | hno
      · exact absurd hz (hnone k (Nat.zero_le k) (by omega))
      · exact absurd ⟨hfree, h4⟩ (hno j hj)
    | some i =>
      obtain ⟨hi, hz⟩ := findSpare_some hspare
      refine h.cut hlt hj (by omega) (fun _ => hz) hfree (.inr (by simp only; omega))
        (.inr (by simp only; omega)) (.inr (.inr (.inl (by simp only; omega))))
        (.inr (.inr (.inl le_rfl))) (.inr (.inr (.inr le_rfl))) (fun x hx hmem => ?_)
        (.inr (.inr fun k hk hkj ha => ?_))
      · have hij : i ≠ j := by
          rintro rfl
          exact hfree hz
        rw [Range.mem_points] at hmem
        simp only [Range.mem_points, ne_eq, hij, not_false_eq_true, true_and]
        omega
      · have hap := h.ranges.apart j hj k hk (Ne.symm hkj)
        unfold Range.Apart at hap
        unfold Range.Around at ha
        omega
  · rw [if_neg h4]
    refine hstay ?_
    unfold Range.Apart
    simp only
    omega

lemma subtractFrom_cutting (hlt : start < fin) : ∀ (n j : ℕ) {range : Ranges},
    j + n = az → Cutting orig start fin az j range →
      Cutting orig start fin az az (subtractFrom az start fin n j range)
  | 0, j, range, hjn, h => by
    obtain rfl : j = az := by omega
    exact h
  | n + 1, j, range, hjn, h => subtractFrom_cutting hlt n (j + 1) (by omega) (h.step hlt (by omega))

lemma subtractRange_spec (h : DisjointRanges range az) (hlt : start < fin)
    (hspare : ∃ i < az, (range i).fin = 0) :
    covered (subtractRange range az start fin) az = covered range az \ Set.Ico start fin ∧
      DisjointRanges (subtractRange range az start fin) az := by
  have hcut : Cutting range start fin az az (subtractFrom az start fin az 0 range) :=
    subtractFrom_cutting hlt az 0 (zero_add az)
      ⟨h, fun i _ hi => absurd hi (Nat.not_lt_zero i), fun x _ => Iff.rfl, .inl hspare⟩
  rw [subtractRange, if_neg (by omega)]
  refine ⟨?_, hcut.ranges⟩
  ext x
  rw [Set.mem_sdiff, Set.mem_Ico]
  by_cases hin : start ≤ x ∧ x < fin
  · simp only [hin, and_self, not_true_eq_false, and_false, iff_false]
    rintro ⟨i, hi, hx⟩
    have hap := hcut.done i hi hi
    unfold Range.Apart at hap
    rw [Range.mem_points] at hx
    simp only at hap
    omega
  · rw [hcut.kept x hin]
    exact ⟨fun hx => ⟨hx, hin⟩, And.left⟩

def twoRanges : Ranges := fun i => if i = 0 then ⟨0, 2⟩ else if i = 1 then ⟨4, 6⟩ else ⟨0, 0⟩

lemma twoRanges_disjoint : DisjointRanges twoRanges 3 :=
  ⟨by decide, by unfold Range.Apart; decide⟩

end LinuxKernel.Kernel
