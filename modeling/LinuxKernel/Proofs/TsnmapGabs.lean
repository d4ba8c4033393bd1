import LinuxKernel.Proofs.BitmapList
import LinuxKernel.Proofs.Tsnmap

/-!
# The gap ack blocks are the runs of TSNs received

The iterator stands at the bit after a run, which is clear. The blocks still to be stored are the
runs from there on, as long as there is room for them.
-/

namespace LinuxKernel.Sctp

open LinuxKernel.Lib (NextBit runs runsFrom runsAt runsFrom_next runsAt_succ runsAt_close)

variable {map : Tsnmap} {bits : ℕ → Bool} {len off : ℕ}

lemma findNextZeroBit_spec (h : off ≤ len) :
    NextBit (fun i => !bits i) off len (findNextZeroBit bits len off) := by
  obtain ⟨h1, h2, h3, h4⟩ := firstZero_spec bits (len - off) off
  unfold findNextZeroBit
  split_ifs with hlen
  · exact ⟨le_rfl, fun hlt => absurd hlt (lt_irrefl _), fun n hn hlt => by omega⟩
  · refine ⟨by omega, fun hlt => ⟨h1, ?_⟩, fun n hn hlt => ?_⟩
    · rw [h4 (by omega), Bool.not_false]
    · rw [h3 n hn hlt, Bool.not_true]

lemma findNextBit_spec (h : off ≤ len) : NextBit bits off len (findNextBit bits len off) := by
  unfold findNextBit
  simpa using @findNextZeroBit_spec (fun i => !bits i) _ _ h

lemma runsAt_add {cur rbot : ℕ} : ∀ d : ℕ, cur + d < len →
    (∀ x, cur < x → x ≤ cur + d → bits x = true) →
    runsAt bits len cur rbot = runsAt bits len (cur + d) rbot
  | 0, _, _ => rfl
  | d + 1, hlt, hset => by
    rw [runsAt_add d (by omega) fun x h1 h2 => hset x h1 (by omega), ← add_assoc]
    exact runsAt_succ hlt (hset _ (by omega) le_rfl)

lemma runsFrom_gap {i j : ℕ} (h : off ≤ len) (hi : NextBit bits off len i) (hlt : i < len)
    (hj : NextBit (fun i => !bits i) i len j) :
    i < j ∧ runsFrom bits (len - off) off none = (i, j - 1) :: runsFrom bits (len - j) j none := by
  have hset : ∀ x, i ≤ x → x < j → bits x = true := fun x h1 h2 => by simpa using hj.miss x h1 h2
  have hclear : j < len → bits j = false := fun hjl => by simpa using (hj.hit hjl).2
  have hij : i < j := by
    refine lt_of_le_of_ne (hj.from_le hlt.le) fun he => ?_
    have := hclear (he ▸ hlt)
    rw [← he, (hi.hit hlt).2] at this
    cases this
  have hnext := @findNextBit_spec bits _ _ hj.le
  refine ⟨hij, ?_⟩
  rw [runsFrom_next h hi, runsAt_add (j - 1 - i) (by have := hj.le; omega)
    fun x h1 h2 => hset x h1.le (by omega), show i + (j - 1 - i) = j - 1 by omega,
    runsFrom_next hj.le hnext]
  rw [show NextBit bits j = NextBit bits (j - 1 + 1) by rw [Nat.sub_add_cancel (by omega)]] at hnext
  refine runsAt_close (by have := hj.le; omega) hnext ?_
  by_contra hno
  obtain ⟨h1, h2⟩ := hnext.hit (by omega)
  rw [show findNextBit bits len j = j by omega, hclear (by omega)] at h2
  cases h2

lemma tsnLte_add (c : Tsn) {a b : ℕ} (ha : a < 2 ^ 31) (hb : b < 2 ^ 31) :
    tsnLte (c + BitVec.ofNat 32 a) (c + BitVec.ofNat 32 b) = decide (a ≤ b) := by
  have heq : c + BitVec.ofNat 32 a = c + BitVec.ofNat 32 b ↔ a = b := by
    rw [add_right_inj, ← BitVec.toNat_inj, BitVec.toNat_ofNat, BitVec.toNat_ofNat]
    omega
  rw [tsnLte, tsnLt_eq, add_sub_add_left_eq_sub, BitVec.toNat_sub, BitVec.toNat_ofNat,
    BitVec.toNat_ofNat, Bool.eq_iff_iff, Bool.or_eq_true, beq_iff_eq, decide_eq_true_eq,
    decide_eq_true_eq, heq]
  omega

/-- The TSN after the cumulative point is missing, and no TSN of the map is above `max_tsn_seen`,
which is at an offset `g` within the map. -/
structure GabsOk (map : Tsnmap) : Prop where
  base : map.baseTsn = map.cumulativeTsnAckPoint + 1
  len_lt : map.len < 2 ^ 16
  missing : 0 < map.len → map.tsnMap 0 = false
  greatest : ∃ g ≤ map.len, map.maxTsnSeen = map.cumulativeTsnAckPoint + BitVec.ofNat 32 g
    ∧ ∀ j < map.len, map.tsnMap j = true → j < g

lemma sctpTsnmapNextGapAck_spec (hok : GabsOk map) (h : off ≤ map.len)
    (hclear : off < map.len → map.tsnMap off = false) {iter : Tsn}
    (hit : iter = map.cumulativeTsnAckPoint + BitVec.ofNat 32 (off + 1)) {rs : List (ℕ × ℕ)}
    (hrun : runsFrom map.tsnMap (map.len - off) off none = rs) :
    (sctpTsnmapNextGapAck map iter = none ∧ rs = []) ∨ ∃ i j, i < j ∧ j ≤ map.len
      ∧ (j < map.len → map.tsnMap j = false)
      ∧ rs = (i, j - 1) :: runsFrom map.tsnMap (map.len - j) j none
      ∧ sctpTsnmapNextGapAck map iter
        = some ((i + 1, j), map.cumulativeTsnAckPoint + BitVec.ofNat 32 (j + 1)) := by
  obtain ⟨g, hg, hmax, hgreat⟩ := hok.greatest
  have hlen := hok.len_lt
  have hi := @findNextBit_spec map.tsnMap _ _ h
  have hrs : ¬ findNextBit map.tsnMap map.len off < map.len → rs = [] := fun hn => by
    rw [← hrun, runsFrom_next h hi, runsAt, if_neg hn]
  have hiter : (iter - map.baseTsn).toNat % 2 ^ 16 = off := by
    rw [hit, hok.base, show (1 : Tsn) = BitVec.ofNat 32 1 from rfl, add_sub_add_left_eq_sub,
      ofNat_sub_toNat (by omega) (by omega)]
    omega
  have hstop : tsnLte map.maxTsnSeen iter = decide (g ≤ off + 1) := by
    rw [hmax, hit]
    exact tsnLte_add _ (by omega) (by omega)
  simp only [sctpTsnmapNextGapAck, sctpTsnmapFindGapAck, hstop, hiter]
  generalize findNextBit map.tsnMap map.len off = i at *
  by_cases hge : g ≤ off + 1
  · rw [if_pos (decide_eq_true hge)]
    refine .inl ⟨rfl, hrs fun hlt => ?_⟩
    obtain ⟨h1, h2⟩ := hi.hit hlt
    have := hgreat i hlt h2
    rw [show i = off by omega, hclear (by omega)] at h2
    cases h2
  rw [if_neg (by simpa using hge)]
  by_cases hlt : i < map.len
  · have hj := @findNextZeroBit_spec map.tsnMap _ _ hlt.le
    obtain ⟨hij, hgap⟩ := runsFrom_gap h hi hlt hj
    obtain ⟨h1, h2⟩ := hi.hit hlt
    have hne : i ≠ off := fun he => by
      rw [he, hclear (he ▸ hlt)] at h2
      cases h2
    refine .inr ⟨i, _, hij, hj.le, fun hjl => by simpa using (hj.hit hjl).2, hrun ▸ hgap, ?_⟩
    have hle := hj.le
    generalize findNextZeroBit map.tsnMap map.len i = j at *
    -- a run that ends with the map has its end put in afterwards
    have hfin : (if i ≠ 0 ∧ (if j < map.len then j - 1 else 0) = 0 then map.len - 1
        else if j < map.len then j - 1 else 0) = j - 1 := by split_ifs <;> omega
    simp only [if_pos hlt, if_pos (show i ≠ 0 by omega), hfin, if_pos (show j - 1 ≠ 0 by omega)]
    rw [Nat.sub_add_cancel (by omega), Nat.mod_eq_of_lt (by omega), Nat.mod_eq_of_lt (by omega),
      add_assoc, show (1 : Tsn) = BitVec.ofNat 32 1 from rfl, ofNat_succ]
  · refine .inl ⟨?_, hrs hlt⟩
    simp [if_neg hlt]

lemma numGabsLoop_eq (hok : GabsOk map) : ∀ (n : ℕ) {off : ℕ}, off ≤ map.len →
    (off < map.len → map.tsnMap off = false) →
    numGabsLoop map n (map.cumulativeTsnAckPoint + BitVec.ofNat 32 (off + 1))
      = ((runsFrom map.tsnMap (map.len - off) off none).take n).map fun r => (r.1 + 1, r.2 + 1)
  | 0, _, _, _ => rfl
  | n + 1, off, h, hclear => by
    rw [numGabsLoop]
    obtain ⟨hnone, hrs⟩ | ⟨i, j, hij, hj, hjc, hrs, hsome⟩ := sctpTsnmapNextGapAck_spec hok h hclear
      rfl rfl
    · rw [hnone, hrs]
      rfl
    · rw [hsome, hrs, List.take_succ_cons, List.map_cons, Nat.sub_add_cancel (by omega),
        ← numGabsLoop_eq hok n hj hjc]

theorem sctpTsnmapNumGabs_runs (hok : GabsOk map) : sctpTsnmapNumGabs map =
    ((runs map.tsnMap map.len).take SCTP_MAX_GABS).map fun r => (r.1 + 1, r.2 + 1) := by
  have h := numGabsLoop_eq hok SCTP_MAX_GABS (Nat.zero_le _) hok.missing
  rw [runs, sctpTsnmapNumGabs]
  split_ifs with hgap
  · exact h
  have hmax : map.maxTsnSeen = map.cumulativeTsnAckPoint + BitVec.ofNat 32 0 := by
    rw [sctpTsnmapHasGap, bne_iff_ne, not_not] at hgap
    rw [← hgap, BitVec.add_zero]
  have hnone : sctpTsnmapNextGapAck map (map.cumulativeTsnAckPoint + BitVec.ofNat 32 1) = none := by
    rw [sctpTsnmapNextGapAck, hmax, tsnLte_add _ (by decide) (by decide), if_pos (by decide)]
  rw [← Nat.sub_zero map.len, ← h, SCTP_MAX_GABS, numGabsLoop, zero_add, hnone]

/-- Two runs, the second up to the last bit of the map. -/
theorem sctpTsnmapNumGabs_runs_two :
    sctpTsnmapNumGabs ⟨fun i => [2, 3, 7].contains i, 11, 10, 18, 8⟩ = [(3, 4), (8, 8)] := by
  refine (sctpTsnmapNumGabs_runs ⟨rfl, by decide, fun _ => rfl, 8, by decide, rfl, by decide⟩).trans ?_
  decide

end LinuxKernel.Sctp
