import LinuxKernel.Tsnmap

/-!
# A TSN map is a set of TSNs

The TSNs seen are natural numbers, a TSN of the map being one modulo 2^32. `Rep` says that the map
holds the set. When the map grows, only the longs up to bit `max_tsn_seen - base_tsn` are copied,
not including that bit: it is lost if it is the first of a long.
-/

namespace LinuxKernel.Sctp

open BitVec

variable {tsn : Tsn} {gap a b : ℕ} {L : LongSize} {map : Tsnmap} {seen : Set ℕ} {last : ℕ}

lemma ofNat_sub_toNat (h : b ≤ a) (hlt : a - b < 2 ^ 32) :
    (BitVec.ofNat 32 a - BitVec.ofNat 32 b).toNat = a - b := by
  rw [toNat_sub, BitVec.toNat_ofNat, BitVec.toNat_ofNat]
  omega

lemma tsnLt_eq (s t : Tsn) : tsnLt s t = decide (2 ^ 31 ≤ (s - t).toNat) := by
  rw [tsnLt, msb_eq_decide]

lemma tsnLt_ofNat (h1 : a < b + 2 ^ 31) (h2 : b ≤ a + 2 ^ 31) :
    tsnLt (BitVec.ofNat 32 a) (BitVec.ofNat 32 b) = decide (a < b) := by
  rw [tsnLt_eq, toNat_sub, BitVec.toNat_ofNat, BitVec.toNat_ofNat, decide_eq_decide]
  omega

lemma ofNat_succ (a k : ℕ) : BitVec.ofNat 32 a + BitVec.ofNat 32 k = BitVec.ofNat 32 (a + k) :=
  (ofNat_add a k).symm

lemma ofNat_inj (h1 : b ≤ a) (hlt : a - b < 2 ^ 32) :
    BitVec.ofNat 32 b = BitVec.ofNat 32 a ↔ a = b := by
  rw [← toNat_inj, BitVec.toNat_ofNat, BitVec.toNat_ofNat]
  omega

def unwrap (ref : ℕ) (tsn : Tsn) : ℕ :=
  if (tsn - BitVec.ofNat 32 ref).toNat < 2 ^ 31 then ref + (tsn - BitVec.ofNat 32 ref).toNat
  else ref + (tsn - BitVec.ofNat 32 ref).toNat - 2 ^ 32

lemma unwrap_ofNat (h1 : a < b + 2 ^ 31) (h2 : b ≤ a + 2 ^ 31) :
    unwrap b (BitVec.ofNat 32 a) = a := by
  unfold unwrap
  rw [toNat_sub, BitVec.toNat_ofNat, BitVec.toNat_ofNat]
  split_ifs <;> omega

lemma firstZero_spec (bits : ℕ → Bool) : ∀ n i : ℕ,
    i ≤ firstZero bits n i ∧ firstZero bits n i ≤ i + n
    ∧ (∀ j, i ≤ j → j < firstZero bits n i → bits j = true)
    ∧ (firstZero bits n i < i + n → bits (firstZero bits n i) = false)
  | 0, i => ⟨le_rfl, le_rfl, fun j h1 h2 => absurd h1 (not_le.2 h2),
      fun h => absurd h (lt_irrefl i)⟩
  | n + 1, i => by
    rw [firstZero]
    split_ifs with hb
    · obtain ⟨h1, h2, h3, h4⟩ := firstZero_spec bits n (i + 1)
      refine ⟨by omega, by omega, fun j hj hlt => ?_, fun hlt => h4 (by omega)⟩
      rcases Nat.eq_or_lt_of_le hj with rfl | hj
      · exact hb
      · exact h3 j hj hlt
    · exact ⟨le_rfl, by omega, fun j h1 h2 => absurd h1 (not_le.2 h2), fun _ => by simpa using hb⟩

section

variable {last c : ℕ}

/-- The map holds the set of the numbers seen, all of those up to `c` among them; `last` is the
greatest. -/
structure Holds (map : Tsnmap) (seen : Set ℕ) (last c : ℕ) : Prop where
  base : map.baseTsn = BitVec.ofNat 32 (c + 1)
  cum : map.cumulativeTsnAckPoint = BitVec.ofNat 32 c
  max : map.maxTsnSeen = BitVec.ofNat 32 last
  below : ∀ y ≤ c, y ∈ seen
  last_mem : last ∈ seen
  le_last : ∀ y ∈ seen, y ≤ last
  last_le : last ≤ c + map.len
  bits : ∀ i, map.tsnMap i = true ↔ c + 1 + i ∈ seen
  len_le : map.len ≤ SCTP_TSN_MAP_SIZE

/-- And the number after `c` is missing. -/
structure Rep (map : Tsnmap) (seen : Set ℕ) (last c : ℕ) : Prop extends Holds map seen last c where
  missing : c + 1 ∉ seen

section

variable (h : Holds map seen last c)

include h

lemma Holds.le : c ≤ last := h.le_last c (h.below c le_rfl)

lemma sctpTsnmapUpdate_rep :
    ∃ c', Rep (sctpTsnmapUpdate map) seen last c' := by
  have hle := h.le
  have hlast := h.last_le
  have hlen := h.len_le
  unfold SCTP_TSN_MAP_SIZE at hlen
  have hn : (map.maxTsnSeen - map.cumulativeTsnAckPoint).toNat % 2 ^ 16 = last - c := by
    rw [h.max, h.cum, ofNat_sub_toNat hle (by omega), Nat.mod_eq_of_lt (by omega)]
  unfold sctpTsnmapUpdate
  rw [hn]
  obtain ⟨-, hz, hones, hzero⟩ := firstZero_spec map.tsnMap (last - c) 0
  dsimp only
  generalize firstZero map.tsnMap (last - c) 0 = z at *
  rw [zero_add] at hz hzero
  have hmissing : c + z + 1 ∉ seen := by
    rcases lt_or_ge z (last - c) with hlt | hge
    · intro hmem
      rw [show c + z + 1 = c + 1 + z by omega, ← h.bits, hzero hlt] at hmem
      cases hmem
    · intro hmem
      have := h.le_last _ hmem
      omega
  split_ifs with h0
  · subst h0
    exact ⟨c, h, hmissing⟩
  refine ⟨c + z, ⟨?_, ?_, h.max, fun y hy => ?_, h.last_mem, h.le_last, ?_, fun i => ?_,
    h.len_le⟩, hmissing⟩
  · show map.baseTsn + BitVec.ofNat 32 z = _
    rw [h.base, ofNat_succ]
    congr 1
    omega
  · show map.cumulativeTsnAckPoint + BitVec.ofNat 32 z = _
    rw [h.cum, ofNat_succ]
  · rcases lt_or_ge c y with hlt | hge
    · have hone := hones (y - c - 1) (Nat.zero_le _) (by omega)
      rw [h.bits, show c + 1 + (y - c - 1) = y by omega] at hone
      exact hone
    · exact h.below y hge
  · show last ≤ c + z + map.len
    omega
  · show shiftRight map.tsnMap z map.len i = true ↔ _
    rw [shiftRight, Bool.and_eq_true, h.bits, decide_eq_true_eq,
      show c + 1 + (i + z) = c + z + 1 + i by omega]
    refine ⟨fun hi => hi.2, fun hmem => ⟨?_, hmem⟩⟩
    have := h.le_last _ hmem
    omega

lemma tsn_eq (tsn : Tsn) :
    tsn = BitVec.ofNat 32 (c + 1 + (tsn - map.baseTsn).toNat) := by
  rw [h.base, ← toNat_inj, BitVec.toNat_ofNat, toNat_sub, BitVec.toNat_ofNat]
  have := tsn.isLt
  omega

lemma tsnLt_size
    (hlt : (tsn - map.baseTsn).toNat < 2 ^ 31) :
    tsnLt tsn (map.baseTsn + BitVec.ofNat 32 SCTP_TSN_MAP_SIZE)
      = decide ((tsn - map.baseTsn).toNat < SCTP_TSN_MAP_SIZE) := by
  have htsn := tsn_eq h tsn
  generalize (tsn - map.baseTsn).toNat = gap at *
  rw [htsn, h.base, ofNat_succ]
  unfold SCTP_TSN_MAP_SIZE
  rw [tsnLt_ofNat (by omega) (by omega), decide_eq_decide]
  omega

lemma max_next (hgap : gap < SCTP_TSN_MAP_SIZE) :
    (if tsnLt map.maxTsnSeen (BitVec.ofNat 32 (c + 1 + gap)) then BitVec.ofNat 32 (c + 1 + gap)
      else map.maxTsnSeen) = BitVec.ofNat 32 (Max.max last (c + 1 + gap)) := by
  have hle := h.le
  have hlast := h.last_le
  have hlen := h.len_le
  unfold SCTP_TSN_MAP_SIZE at hlen hgap
  rw [h.max, tsnLt_ofNat (by omega) (by omega)]
  by_cases hlt : last < c + 1 + gap
  · rw [if_pos (by simpa using hlt), Nat.max_eq_right hlt.le]
  · rw [if_neg (by simpa using hlt), Nat.max_eq_left (by omega)]

omit h in
lemma lt_bitsToLongs {n : ℕ} (hn : n < SCTP_TSN_MAP_SIZE) (hmod : n % L.bits ≠ 0) :
    n < bitsToLongs L (BitVec.ofNat 32 n) * L.bits := by
  unfold SCTP_TSN_MAP_SIZE at hn
  have htoNat : (BitVec.ofNat 32 n).toNat = n := by
    rw [BitVec.toNat_ofNat, Nat.mod_eq_of_lt (by omega)]
  have hmsb : (BitVec.ofNat 32 n).msb = false := by
    rw [msb_eq_decide, htoNat]
    simp
    omega
  rw [bitsToLongs, signExtend_eq_setWidth_of_msb_false hmsb, toNat_setWidth, htoNat]
  cases L <;> simp only [LongSize.bits] at * <;> omega

omit h in
lemma sctpTsnmapGrow_rep (h : Rep map seen last c) (hlen : map.len ≤ gap)
    (hgap : gap < SCTP_TSN_MAP_SIZE) (hcopy : (map.maxTsnSeen - map.baseTsn).toNat % L.bits ≠ 0) :
    ∃ map', sctpTsnmapGrow L map gap = some map' ∧ Rep map' seen last c ∧ gap < map'.len := by
  have hle := h.le
  have hlast := h.last_le
  rw [sctpTsnmapGrow, if_neg (not_le.2 hgap)]
  have hgrow : gap < min
      ((map.len + ((gap - map.len + (L.bits - 1)) / L.bits * L.bits + L.bits)) % 2 ^ 16)
      SCTP_TSN_MAP_SIZE := by
    unfold SCTP_TSN_MAP_SIZE at hgap ⊢
    cases L <;> simp only [LongSize.bits] <;> omega
  refine ⟨_, rfl, ⟨⟨h.base, h.cum, h.max, h.below, h.last_mem, h.le_last, ?_, fun i => ?_,
    Nat.min_le_right _ _⟩, h.missing⟩, hgrow⟩
  · dsimp only
    omega
  show (decide _ && _) = true ↔ _
  rw [Bool.and_eq_true, h.bits, decide_eq_true_eq]
  refine ⟨fun hi => hi.2, fun hmem => ⟨?_, hmem⟩⟩
  have hi := h.le_last _ hmem
  have hsub : map.maxTsnSeen - map.baseTsn = BitVec.ofNat 32 (last - (c + 1)) := by
    rw [h.max, h.base, ← toNat_inj, ofNat_sub_toNat (by omega) ?_, BitVec.toNat_ofNat,
      Nat.mod_eq_of_lt]
    all_goals
      unfold SCTP_TSN_MAP_SIZE at hgap
      omega
  have hsmall : last - (c + 1) < SCTP_TSN_MAP_SIZE := by omega
  rw [hsub] at hcopy ⊢
  have hword : last - (c + 1) < 2 ^ 32 := by
    unfold SCTP_TSN_MAP_SIZE at hsmall
    omega
  rw [BitVec.toNat_ofNat, Nat.mod_eq_of_lt hword] at hcopy
  have := lt_bitsToLongs hsmall hcopy
  omega

lemma Holds.greatest {x : ℕ} {seen' : Set ℕ} (hx : x ∈ seen')
    (hsub : ∀ y ∈ seen, y ∈ seen') (hnew : ∀ y ∈ seen', y ∈ seen ∨ y ≤ x) :
    Max.max last x ∈ seen' ∧ ∀ y ∈ seen', y ≤ Max.max last x := by
  constructor
  · rcases Nat.le_total last x with hl | hl
    · rwa [Nat.max_eq_right hl]
    · rw [Nat.max_eq_left hl]
      exact hsub last h.last_mem
  · intro y hy
    rcases hnew y hy with hold | hle
    · exact (h.le_last y hold).trans (Nat.le_max_left _ _)
    · exact hle.trans (Nat.le_max_right _ _)

omit h in
lemma markGap_rep (h : Rep map seen last c) (hlen : gap < map.len) :
    ∃ c', Rep (markGap map (BitVec.ofNat 32 (c + 1 + gap)) gap) (insert (c + 1 + gap) seen)
      (Max.max last (c + 1 + gap)) c' := by
  have hle := h.le
  have hlast := h.last_le
  have hsize := h.len_le
  have hgap : gap < SCTP_TSN_MAP_SIZE := by omega
  obtain ⟨hmax, hgreatest⟩ := h.greatest (Set.mem_insert (c + 1 + gap) seen)
    (fun y hy => Set.mem_insert_of_mem _ hy)
    fun y hy => (Set.mem_insert_iff.1 hy).symm.imp_right le_of_eq
  unfold markGap
  by_cases hfast : ¬ sctpTsnmapHasGap map = true ∧ gap = 0
  · rw [if_pos hfast]
    obtain ⟨hnogap, rfl⟩ := hfast
    have heq : last = c := by
      have hcum : map.cumulativeTsnAckPoint = map.maxTsnSeen := by
        simpa [sctpTsnmapHasGap] using hnogap
      rw [h.cum, h.max] at hcum
      exact (ofNat_inj hle (by unfold SCTP_TSN_MAP_SIZE at hsize; omega)).1 hcum
    subst heq
    have habove : ∀ y, last < y → y ∉ seen :=
      fun y hy hmem => absurd (h.le_last y hmem) (not_le.2 hy)
    refine ⟨last + 1, ⟨?_, ?_, ?_, fun y hy => ?_, hmax, hgreatest, ?_, fun i => ?_, hsize⟩, ?_⟩
    · show map.baseTsn + 1 = _
      rw [h.base]
      exact ofNat_succ _ 1
    · show map.cumulativeTsnAckPoint + 1 = _
      rw [h.cum]
      exact ofNat_succ _ 1
    · show map.maxTsnSeen + 1 = _
      rw [h.max, Nat.max_eq_right (by omega)]
      exact ofNat_succ _ 1
    · rcases lt_or_ge last y with hlt | hge
      · exact Set.mem_insert_iff.2 (.inl (by omega))
      · exact Set.mem_insert_of_mem _ (h.below y hge)
    · dsimp only
      omega
    · rw [h.bits, Set.mem_insert_iff]
      constructor
      · exact fun hmem => absurd hmem (habove _ (by omega))
      · rintro (hmem | hmem)
        · omega
        · exact absurd hmem (habove _ (by omega))
    · rw [Set.mem_insert_iff]
      rintro (hmem | hmem)
      · omega
      · exact habove _ (by omega) hmem
  · rw [if_neg hfast]
    refine sctpTsnmapUpdate_rep ⟨h.base, h.cum, max_next h.toHolds hgap, fun y hy =>
      Set.mem_insert_of_mem _ (h.below y hy), hmax, hgreatest, ?_, fun i => ?_, hsize⟩
    · dsimp only
      omega
    dsimp only
    rw [Function.update_apply, Set.mem_insert_iff]
    split_ifs with hi
    · exact ⟨fun _ => Or.inl (by omega), fun _ => rfl⟩
    · rw [h.bits]
      refine ⟨.inr, fun hmem => hmem.resolve_left (by omega)⟩

omit h in
lemma sctpTsnmapMark_rep (h : Rep map seen last c)
    (hgap : (tsn - map.baseTsn).toNat < SCTP_TSN_MAP_SIZE)
    (hcopy : ¬ (map.len ≤ (tsn - map.baseTsn).toNat
      ∧ (map.maxTsnSeen - map.baseTsn).toNat % L.bits = 0)) :
    ∃ c', Rep (sctpTsnmapMark L map tsn) (insert (c + 1 + (tsn - map.baseTsn).toNat) seen)
      (Max.max last (c + 1 + (tsn - map.baseTsn).toNat)) c' := by
  have htsn := tsn_eq h.toHolds tsn
  have hlt : tsnLt tsn map.baseTsn = false := by
    rw [tsnLt_eq, decide_eq_false]
    unfold SCTP_TSN_MAP_SIZE at hgap
    omega
  unfold sctpTsnmapMark
  rw [hlt, if_neg (by simp), Nat.mod_eq_of_lt (by unfold SCTP_TSN_MAP_SIZE at hgap; omega)]
  dsimp only
  generalize (tsn - map.baseTsn).toNat = gap at *
  subst htsn
  split_ifs with hlen
  · obtain ⟨map', hgrow, hrep, hlen'⟩ := sctpTsnmapGrow_rep (L := L) h hlen hgap
      fun hmod => hcopy ⟨hlen, hmod⟩
    rw [hgrow]
    exact markGap_rep hrep hlen'
  · exact markGap_rep h (not_le.1 hlen)

omit h in
lemma sctpTsnmapSkip_rep (h : Rep map seen last c)
    (hgap : (tsn - map.baseTsn).toNat < SCTP_TSN_MAP_SIZE) :
    ∃ c', Rep (sctpTsnmapSkip map tsn) (seen ∪ {y | y ≤ c + 1 + (tsn - map.baseTsn).toNat})
      (Max.max last (c + 1 + (tsn - map.baseTsn).toNat)) c' := by
  have htsn := tsn_eq h.toHolds tsn
  have hle := h.le
  have hlast := h.last_le
  have hsize := h.len_le
  have hgap' := hgap
  unfold SCTP_TSN_MAP_SIZE at hgap'
  have hlt : tsnLt tsn map.baseTsn = false := by
    rw [tsnLt_eq, decide_eq_false]
    omega
  have hnear : tsnLt tsn (map.baseTsn + BitVec.ofNat 32 SCTP_TSN_MAP_SIZE) = true := by
    rw [tsnLt_size h.toHolds (by omega), decide_eq_true hgap]
  have hone : (tsn - map.baseTsn + 1).toNat = (tsn - map.baseTsn).toNat + 1 := by
    rw [toNat_add]
    show (_ + 1) % 2 ^ 32 = _
    omega
  unfold sctpTsnmapSkip
  rw [hlt, hnear, if_neg (by simp), if_neg (by simp), hone]
  dsimp only
  generalize (tsn - map.baseTsn).toNat = gap at *
  subst htsn
  have hmax := max_next h.toHolds hgap
  have hbase : map.baseTsn + BitVec.ofNat 32 (gap + 1) = BitVec.ofNat 32 (c + 1 + gap + 1) := by
    rw [h.base, ofNat_succ]
    congr 1
  have hcum : map.cumulativeTsnAckPoint + BitVec.ofNat 32 (gap + 1)
      = BitVec.ofNat 32 (c + 1 + gap) := by
    rw [h.cum, ofNat_succ]
    congr 1
    omega
  have hmem : ∀ y, c + 1 + gap < y → (y ∈ seen ∪ {y | y ≤ c + 1 + gap} ↔ y ∈ seen) := by
    intro y hy
    refine ⟨fun hm => hm.resolve_right ?_, .inl⟩
    exact not_le.2 hy
  obtain ⟨hlastmem, hlelast⟩ : Max.max last (c + 1 + gap) ∈ seen ∪ {y | y ≤ c + 1 + gap}
      ∧ ∀ y ∈ seen ∪ {y | y ≤ c + 1 + gap}, y ≤ Max.max last (c + 1 + gap) :=
    h.greatest (.inr (le_refl (c + 1 + gap))) (fun y hy => Or.inl hy) fun y hy => hy
  by_cases hbig : map.len ≤ gap + 1
  · rw [if_pos hbig]
    have habove : ∀ y, c + 1 + gap < y → y ∉ seen := fun y hy hm => by
      have := h.le_last y hm
      omega
    refine ⟨c + 1 + gap,
      ⟨hbase, hcum, hmax, fun y hy => Or.inr hy, hlastmem, hlelast, ?_, fun i => ?_, hsize⟩, ?_⟩
    · dsimp only
      omega
    · rw [hmem _ (by omega)]
      exact ⟨nofun, fun hm => absurd hm (habove _ (by omega))⟩
    · rw [hmem _ (by omega)]
      exact habove _ (by omega)
  · rw [if_neg hbig]
    refine sctpTsnmapUpdate_rep (c := c + 1 + gap)
      ⟨hbase, hcum, hmax, fun y hy => Or.inr hy, hlastmem, hlelast, ?_, fun i => ?_, hsize⟩
    · dsimp only
      omega
    show (decide _ && _) = true ↔ _
    rw [Bool.and_eq_true, h.bits, decide_eq_true_eq, hmem _ (by omega),
      show c + 1 + (i + (gap + 1)) = c + 1 + gap + 1 + i by omega]
    refine ⟨fun hi => hi.2, fun hm => ⟨?_, hm⟩⟩
    have := h.le_last _ hm
    omega

lemma gap_lt
    (hold : tsnLte tsn map.cumulativeTsnAckPoint = false) : (tsn - map.baseTsn).toNat < 2 ^ 31 := by
  rw [tsnLte, Bool.or_eq_false_iff, tsnLt_eq, beq_eq_false_iff_ne, ne_eq,
    decide_eq_false_iff_not] at hold
  obtain ⟨hne, hlt⟩ := hold
  rw [h.cum, ← toNat_inj, BitVec.toNat_ofNat] at hne
  rw [h.cum, toNat_sub, BitVec.toNat_ofNat] at hlt
  rw [h.base, toNat_sub, BitVec.toNat_ofNat]
  have := tsn.isLt
  omega

lemma sctpTsnmapCheck_zero
    (hc : sctpTsnmapCheck map tsn = 0) :
    (tsn - map.baseTsn).toNat < SCTP_TSN_MAP_SIZE := by
  unfold sctpTsnmapCheck at hc
  by_cases hold : tsnLte tsn map.cumulativeTsnAckPoint = true
  · rw [if_pos hold] at hc
    cases hc
  · rw [if_neg hold, tsnLt_size h (gap_lt h (by simpa using hold))] at hc
    by_contra hge
    rw [if_pos (by simpa using hge)] at hc
    cases hc

lemma sctpTsnmapCheck_one (tsn : Tsn) :
    sctpTsnmapCheck map tsn = 1 ↔ tsnLte tsn map.cumulativeTsnAckPoint = true
      ∨ ∃ y ∈ seen, c < y ∧ tsn = BitVec.ofNat 32 y := by
  unfold sctpTsnmapCheck
  by_cases hold : tsnLte tsn map.cumulativeTsnAckPoint = true
  · rw [if_pos hold]
    exact ⟨fun _ => Or.inl hold, fun _ => rfl⟩
  have hlt := gap_lt h (by simpa using hold)
  have htsn := tsn_eq h tsn
  have hlast := h.last_le
  have hsize := h.len_le
  -- a number seen above the cumulative point is the one the gap stands for
  have hgap : ∀ y ∈ seen, c < y → tsn = BitVec.ofNat 32 y →
      y = c + 1 + (tsn - map.baseTsn).toNat := by
    intro y hy hcy heq
    have hyl := h.le_last y hy
    unfold SCTP_TSN_MAP_SIZE at hsize
    rw [heq, h.base, ofNat_sub_toNat (by omega) (by omega)]
    omega
  rw [if_neg hold, tsnLt_size h hlt]
  by_cases hnear : (tsn - map.baseTsn).toNat < SCTP_TSN_MAP_SIZE
  · rw [if_neg (by simpa using hnear)]
    dsimp only
    have hiff : ((tsn - map.baseTsn).toNat < map.len
        ∧ map.tsnMap (tsn - map.baseTsn).toNat = true)
        ↔ c + 1 + (tsn - map.baseTsn).toNat ∈ seen := by
      rw [h.bits]
      refine ⟨fun hb => hb.2, fun hm => ⟨?_, hm⟩⟩
      have := h.le_last _ hm
      omega
    constructor
    · intro hone
      by_cases hb : (tsn - map.baseTsn).toNat < map.len
        ∧ map.tsnMap (tsn - map.baseTsn).toNat = true
      swap
      · rw [if_neg hb] at hone
        cases hone
      exact .inr ⟨_, hiff.1 hb, by omega, htsn⟩
    · rintro (hcontra | ⟨y, hy, hcy, heq⟩)
      · exact absurd hcontra hold
      · rw [hgap y hy hcy heq] at hy
        rw [if_pos (hiff.2 hy)]
  · rw [if_pos (by simpa using hnear)]
    constructor
    · intro hone
      cases hone
    rintro (hcontra | ⟨y, hy, hcy, heq⟩)
    · exact absurd hcontra hold
    · have h1 := hgap y hy hcy heq
      have h2 := h.le_last y hy
      omega

end

end

/-- The maps that calls reach, with the numbers seen and the greatest of them. A mark is of a TSN
that was checked and meets `ok`; a skip of a TSN below the base or too far above it is ignored. -/
inductive Reach (L : LongSize) (ok : Tsnmap → Tsn → Prop) : Tsnmap → Set ℕ → ℕ → Prop
  | init (initialTsn : Tsn) : Reach L ok (sctpTsnmapInit L initialTsn)
      {y | y ≤ 2 ^ 32 + initialTsn.toNat - 1} (2 ^ 32 + initialTsn.toNat - 1)
  | mark {map : Tsnmap} {seen : Set ℕ} {last : ℕ} {tsn : Tsn} : Reach L ok map seen last →
      sctpTsnmapCheck map tsn = 0 → ok map tsn →
      Reach L ok (sctpTsnmapMark L map tsn) (insert (unwrap last tsn) seen)
        (Max.max last (unwrap last tsn))
  | skip {map : Tsnmap} {seen : Set ℕ} {last : ℕ} {tsn : Tsn} : Reach L ok map seen last →
      tsnLt tsn map.baseTsn = false →
      tsnLt tsn (map.baseTsn + BitVec.ofNat 32 SCTP_TSN_MAP_SIZE) = true →
      Reach L ok (sctpTsnmapSkip map tsn) (seen ∪ {y | y ≤ unwrap last tsn})
        (Max.max last (unwrap last tsn))
  | skipIgnored {map : Tsnmap} {seen : Set ℕ} {last : ℕ} {tsn : Tsn} : Reach L ok map seen last →
      (tsnLt tsn map.baseTsn = true
        ∨ tsnLt tsn (map.baseTsn + BitVec.ofNat 32 SCTP_TSN_MAP_SIZE) = false) →
      Reach L ok (sctpTsnmapSkip map tsn) seen last

/-- The map need not grow for the TSN, or the last bit it copies is not the first of a long. -/
def CopyOk (L : LongSize) (map : Tsnmap) (tsn : Tsn) : Prop :=
  ¬ (map.len ≤ (tsn - map.baseTsn).toNat ∧ (map.maxTsnSeen - map.baseTsn).toNat % L.bits = 0)

lemma unwrap_gap {c : ℕ} (h : Holds map seen last c)
    (hgap : (tsn - map.baseTsn).toNat < SCTP_TSN_MAP_SIZE) :
    unwrap last tsn = c + 1 + (tsn - map.baseTsn).toNat := by
  have hle := h.le
  have hlast := h.last_le
  have hsize := h.len_le
  unfold SCTP_TSN_MAP_SIZE at hgap hsize
  have htsn := tsn_eq h tsn
  generalize (tsn - map.baseTsn).toNat = gap at *
  rw [htsn]
  exact unwrap_ofNat (by omega) (by omega)

lemma Reach.rep (hr : Reach L (CopyOk L) map seen last) : ∃ c, Rep map seen last c := by
  induction hr with
  | init initialTsn =>
    have hlt := initialTsn.isLt
    have hbits : L.bits ≤ SCTP_TSN_MAP_SIZE := by cases L <;> decide
    have hpred : initialTsn - 1 = BitVec.ofNat 32 (2 ^ 32 + initialTsn.toNat - 1) := by
      rw [← toNat_inj, BitVec.toNat_ofNat, toNat_sub]
      show (2 ^ 32 - 1 + initialTsn.toNat) % 2 ^ 32 = _
      omega
    refine ⟨2 ^ 32 + initialTsn.toNat - 1, ⟨?_, ?_, ?_, fun y hy => hy, ?_, fun y hy => hy, ?_,
      fun i => ?_, hbits⟩, ?_⟩
    · rw [← toNat_inj, BitVec.toNat_ofNat]
      show initialTsn.toNat = _
      omega
    · exact hpred
    · exact hpred
    · exact le_refl (2 ^ 32 + initialTsn.toNat - 1)
    · exact Nat.le_add_right _ _
    · refine ⟨nofun, fun hy => ?_⟩
      rw [Set.mem_ofPred_eq] at hy
      omega
    · rw [Set.mem_ofPred_eq]
      omega
  | mark _ hc hok ih =>
    obtain ⟨c, h⟩ := ih
    have hgap := sctpTsnmapCheck_zero h.toHolds hc
    rw [unwrap_gap h.toHolds hgap]
    exact sctpTsnmapMark_rep h hgap hok
  | @skip map seen last tsn _ hlt hnear ih =>
    obtain ⟨c, h⟩ := ih
    have hgap : (tsn - map.baseTsn).toNat < SCTP_TSN_MAP_SIZE := by
      rw [tsnLt_eq, decide_eq_false_iff_not] at hlt
      rw [tsnLt_size h.toHolds (by omega), decide_eq_true_eq] at hnear
      exact hnear
    rw [unwrap_gap h.toHolds hgap]
    exact sctpTsnmapSkip_rep h hgap
  | @skipIgnored map seen last tsn _ hign ih =>
    obtain ⟨c, h⟩ := ih
    refine ⟨c, ?_⟩
    unfold sctpTsnmapSkip
    rcases hign with hlt | hfar
    · rw [if_pos hlt]
      exact h
    by_cases hlt : tsnLt tsn map.baseTsn = true
    · rw [if_pos hlt]
      exact h
    · rw [if_neg hlt, hfar, if_pos (by simp)]
      exact h

/-- Where no growing step copies up to the first bit of a long: the cumulative point is before the
first number missing, and the check returns 1 exactly for the TSNs up to it and those seen above it.
-/
theorem tsnmap_represents (hr : Reach L (CopyOk L) map seen last) :
    ∃ c, (map.cumulativeTsnAckPoint = BitVec.ofNat 32 c ∧ (∀ y ≤ c, y ∈ seen) ∧ c + 1 ∉ seen)
      ∧ (map.maxTsnSeen = BitVec.ofNat 32 last ∧ last ∈ seen ∧ ∀ y ∈ seen, y ≤ last)
      ∧ ∀ tsn, sctpTsnmapCheck map tsn = 1 ↔ tsnLte tsn map.cumulativeTsnAckPoint = true
        ∨ ∃ y ∈ seen, c < y ∧ tsn = BitVec.ofNat 32 y := by
  obtain ⟨c, h⟩ := hr.rep
  exact ⟨c, ⟨h.cum, h.below, h.missing⟩, ⟨h.max, h.last_mem, h.le_last⟩,
    sctpTsnmapCheck_one h.toHolds⟩

theorem tsnmap_represents_gap :
    ∃ (map : Tsnmap) (seen : Set ℕ) (last : ℕ), Reach .long64 (CopyOk .long64) map seen last
      ∧ sctpTsnmapCheck map 3 = 1 ∧ ∃ c,
      map.cumulativeTsnAckPoint = BitVec.ofNat 32 c ∧ c + 1 ∉ seen := by
  have h : Reach .long64 (CopyOk .long64)
      (sctpTsnmapMark .long64 (sctpTsnmapInit .long64 1) 3) _ _ :=
    .mark (.init 1) (by decide +kernel) (by unfold CopyOk; decide +kernel)
  obtain ⟨c, ⟨h1, -, h3⟩, -⟩ := tsnmap_represents h
  exact ⟨_, _, _, h, by decide +kernel, c, h1, h3⟩

/-- After the TSNs 65 and 129, the map that started at 1 has lost the first of them. -/
theorem tsnmap_loses_tsn :
    ∃ (map : Tsnmap) (seen : Set ℕ) (last : ℕ), Reach .long64 (fun _ _ => True) map seen last
      ∧ unwrap (2 ^ 32) 65 ∈ seen ∧ sctpTsnmapCheck map 65 = 0 := by
  have h1 : Reach .long64 (fun _ _ => True)
      (sctpTsnmapMark .long64 (sctpTsnmapInit .long64 1) 65) _ _ :=
    .mark (.init 1) (by decide +kernel) trivial
  have h2 : Reach .long64 (fun _ _ => True) (sctpTsnmapMark .long64 _ 129) _ _ :=
    h1.mark (by decide +kernel) trivial
  refine ⟨_, _, _, h2, Set.mem_insert_of_mem _ (Set.mem_insert_iff.2 (.inl ?_)), by decide +kernel⟩
  decide +kernel

end LinuxKernel.Sctp
