import LinuxKernel.MemblockAlloc
import LinuxKernel.Proofs.Memblock

/-!
# Allocated blocks are free memory below the limit

The base goes down at every pass of the inner loop, so the range stays inside the memory entry it
started in. It starts there unless the limit is below the size: the difference of the two then wraps
round.
-/

namespace LinuxKernel.Mm

variable {rgn reserved rgn' : MemblockRegion} {L : LongSize}
  {k addr base size memblockbase fuel maxAddr : ℕ} {ret : ℤ} {mb : Memblock}

lemma subMod_two_pow_one (hk : k < 64) : subMod 64 (2 ^ k) 1 = 2 ^ k - 1 :=
  subMod_of_le (Nat.two_pow_pos k) (Nat.pow_lt_pow_right (by omega) hk)

lemma memblockAlignDown_eq (hk : k < 64) (h : addr < 2 ^ 64) :
    memblockAlignDown addr (2 ^ k) = addr / 2 ^ k * 2 ^ k := by
  rw [memblockAlignDown, subMod_two_pow_one hk, andNot_mask hk.le h]

lemma memblockAlignDown_sub {top : ℕ} (hk : k < 64) (htop : top < 2 ^ 64) (hs : size ≤ top) :
    2 ^ k ∣ memblockAlignDown (subMod 64 top size) (2 ^ k) ∧
      memblockAlignDown (subMod 64 top size) (2 ^ k) + size ≤ top := by
  rw [subMod_of_le hs htop, memblockAlignDown_eq hk (by omega)]
  have hle := roundDown_le (k := k) (a := top - size)
  exact ⟨Nat.dvd_mul_left _ _, by omega⟩

lemma overlapsFrom_none : ∀ {n i : ℕ}, overlapsFrom rgn base size n i = none →
    ∀ j, i ≤ j → j < i + n →
      memblockAddrsOverlap base size (rgn.region j).base (rgn.region j).size = false
  | 0, i, _, j, h1, h2 => by omega
  | n + 1, i, h, j, h1, h2 => by
    rw [overlapsFrom] at h
    split_ifs at h with hov
    rcases Nat.eq_or_lt_of_le h1 with rfl | h1
    · exact Bool.eq_false_iff.mpr hov
    · exact overlapsFrom_none h j h1 (by omega)

lemma overlapsFrom_some : ∀ {n i j : ℕ}, overlapsFrom rgn base size n i = some j →
    memblockAddrsOverlap base size (rgn.region j).base (rgn.region j).size = true
  | n + 1, i, j, h => by
    rw [overlapsFrom] at h
    split_ifs at h with hov
    · obtain rfl := Option.some.inj h
      exact hov
    · exact overlapsFrom_some h

lemma memblockOverlapsRegion_none (h : rgn.Ordered) (hb : base + size < 2 ^ 64)
    (hnone : memblockOverlapsRegion rgn base size = none) : rgn.Apart base size := by
  intro i hi
  have hov := overlapsFrom_none hnone i (Nat.zero_le i) (by omega)
  rw [memblockAddrsOverlap, addMod_of_lt hb, addMod_of_lt (h.below i hi), Bool.and_eq_false_iff,
    decide_eq_false_iff_not, decide_eq_false_iff_not] at hov
  omega

lemma memblockOverlapsRegion_some {j : ℕ}
    (hsome : memblockOverlapsRegion rgn base size = some j) :
    (rgn.region j).base < addMod 64 base size := by
  have hov := overlapsFrom_some hsome
  rw [memblockAddrsOverlap, Bool.and_eq_true, decide_eq_true_eq, decide_eq_true_eq] at hov
  exact hov.2

lemma allocPass_terminates (hk : k < 64) (hbase : base < 2 ^ 64)
    (hfuel : base < fuel) :
    ∃ r, Pass.run (allocPass reserved memblockbase size (2 ^ k)) fuel base = some r := by
  have hstep : ∀ b, b < 2 ^ 64 → (allocPass reserved memblockbase size (2 ^ k) b).Next
      (fun b => b < 2 ^ 64) (fun _ => True) (fun b => b) b := by
    intro base hb
    rw [allocPass]
    split_ifs with hin
    · cases hov : memblockOverlapsRegion reserved base size with
      | none => exact True.intro
      | some j =>
        have hj := memblockOverlapsRegion_some hov
        simp only
        split_ifs with hres
        · exact True.intro
        rw [addMod] at hj
        have hmod := Nat.mod_lt (base + size) (show 0 < 2 ^ 64 by omega)
        have hle := Nat.mod_le (base + size) (2 ^ 64)
        obtain ⟨-, hle'⟩ := memblockAlignDown_sub hk (hj.trans hmod) (not_lt.mp hres)
        have hlt := Nat.lt_of_add_lt_add_right (lt_of_le_of_lt hle' (lt_of_lt_of_le hj hle))
        exact ⟨hlt.trans hb, hlt⟩
    · exact True.intro
  obtain ⟨r, hr, -⟩ := Pass.run_of_next hstep fuel hbase hfuel
  exact ⟨r, hr⟩

structure FreeArea (reserved : MemblockRegion) (k low size top base : ℕ) : Prop where
  aligned : 2 ^ k ∣ base
  low_le : low ≤ base
  le_top : base + size ≤ top
  apart : reserved.Apart base size

lemma allocPass_area (hk : k < 64) (hr : reserved.Ordered) {top : ℕ} (htop : top < 2 ^ 64)
    (hdvd : 2 ^ k ∣ base) (hle : base + size ≤ top) (hfuel : base < fuel) :
    ∃ r, Pass.run (allocPass reserved memblockbase size (2 ^ k)) fuel base = some r ∧
      ∀ b, r = some b → FreeArea reserved k memblockbase size top b := by
  suffices hstep : ∀ b, 2 ^ k ∣ b ∧ b + size ≤ top →
      (allocPass reserved memblockbase size (2 ^ k) b).Next (fun b => 2 ^ k ∣ b ∧ b + size ≤ top)
        (fun r => ∀ b, r = some b → FreeArea reserved k memblockbase size top b) (fun b => b) b from
    Pass.run_of_next hstep fuel ⟨hdvd, hle⟩ hfuel
  rintro b ⟨hb1, hb2⟩
  rw [allocPass]
  split_ifs with hin
  · cases hov : memblockOverlapsRegion reserved b size with
    | none =>
      rintro _ ⟨rfl⟩
      exact ⟨hb1, hin.2, hb2, memblockOverlapsRegion_none hr (by omega) hov⟩
    | some j =>
      have hj := memblockOverlapsRegion_some hov
      rw [addMod_of_lt (by omega)] at hj
      simp only
      split_ifs with hres
      · exact fun _ h => absurd h nofun
      · obtain ⟨h1, h2⟩ := memblockAlignDown_sub hk (show _ < 2 ^ 64 by omega) (not_lt.mp hres)
        exact ⟨⟨h1, (h2.trans hj.le).trans hb2⟩, Nat.lt_of_add_lt_add_right (lt_of_le_of_lt h2 hj)⟩
  · exact fun _ h => absurd h nofun

lemma memblockAddRegion_some (h0 : 0 < rgn.cnt) (hc : rgn.cnt ≤ maxMemblockRegions) :
    ∃ r, memblockAddRegion L rgn base size = some r := by
  rw [memblockAddRegion]
  split_ifs with hdummy
  · exact ⟨_, rfl⟩
  cases htry : tryCoalesce rgn base size rgn.cnt 0 with
  | none => exact ⟨_, rfl⟩
  | some t =>
    obtain ⟨rgn₁, i, c⟩ := t
    have hcnt := tryCoalesce_cnt htry
    simp only
    split_ifs with hadj
    · rw [← hcnt] at h0 hc
      rw [cnt_sub_one L h0 hc] at hadj
      obtain ⟨rgn₂, hrem, -⟩ := memblockRemoveRegion_some L (rgn₁.set i
        ⟨(rgn₁.region i).base, addMod 64 (rgn₁.region i).size (rgn₁.region (i + 1)).size⟩)
        (r := i + 1) (by rw [MemblockRegion.set_cnt]; omega) hc
      rw [memblockCoalesceRegions, hrem]
      exact ⟨_, rfl⟩
    · exact ⟨_, rfl⟩
    · exact ⟨_, rfl⟩

lemma joined_covers {j : ℕ} {p : MemblockProperty}
    (h0 : 0 < rgn.cnt) (hc : rgn.cnt ≤ maxMemblockRegions) (hj : j < rgn.cnt)
    (hp : Set.Ico base (base + size) ⊆ p.addrs)
    (hnext : j + 1 < rgn.cnt → p.size + (rgn.region (j + 1)).size < 2 ^ 64)
    (h : (if j < subMod L.bits (rgn.set j p).cnt 1
          ∧ memblockRegionsAdjacent (rgn.set j p) j (j + 1) ≠ 0 then
        (memblockCoalesceRegions L (rgn.set j p) j (j + 1)).map (·, ((1 + 1 : ℕ) : ℤ))
      else if 1 ≠ 0 then some (rgn.set j p, ((1 : ℕ) : ℤ))
      else some (addToTable (rgn.set j p) base size)) = some (rgn', ret)) :
    Set.Ico base (base + size) ⊆ rgn'.covers := by
  rw [MemblockRegion.set_cnt, cnt_sub_one L h0 hc] at h
  split_ifs at h with hadj
  · obtain ⟨r, hco, heq⟩ := Option.map_eq_some_iff.mp h
    obtain ⟨rfl, -⟩ := Prod.mk.inj heq
    rw [memblockCoalesceRegions, MemblockRegion.set_region_self,
      MemblockRegion.set_region_ne _ _ (show j + 1 ≠ j by omega),
      addMod_of_lt (hnext (by omega))] at hco
    obtain ⟨r', hrem, hcnt, hlow, -⟩ := memblockRemoveRegion_some L ((rgn.set j p).set j
      ⟨p.base, p.size + (rgn.region (j + 1)).size⟩) (r := j + 1) (show j + 1 < rgn.cnt by omega) hc
    obtain rfl := Option.some.inj (hrem.symm.trans hco)
    rw [MemblockRegion.set_cnt, MemblockRegion.set_cnt] at hcnt
    intro a ha
    refine ⟨j, by omega, ?_⟩
    rw [hlow j (by omega), MemblockRegion.set_region_self]
    obtain ⟨h1, h2⟩ := hp ha
    exact ⟨h1, show a < p.base + (p.size + _) by omega⟩
  · obtain ⟨rfl, -⟩ := Prod.mk.inj (Option.some.inj h)
    exact fun a ha => ⟨j, hj, by rw [MemblockRegion.set_region_self]; exact hp ha⟩
  · exact absurd one_ne_zero ‹_›

lemma memblockAddRegion_covers (h : rgn.Ordered) (h0 : 0 < rgn.cnt) (hs : 0 < size)
    (hb : base + size < 2 ^ 64) (ha : rgn.Apart base size)
    (hadd : memblockAddRegion L rgn base size = some (rgn', ret)) (hret : 0 ≤ ret) :
    Set.Ico base (base + size) ⊆ rgn'.covers := by
  rw [memblockAddRegion] at hadd
  split_ifs at hadd with hdummy
  · obtain ⟨rfl, -⟩ := Prod.mk.inj (Option.some.inj hadd)
    exact fun a hmem => ⟨0, h0, by rw [MemblockRegion.set_region_self]; exact hmem⟩
  have hjoin := tryCoalesce_joined h hs hb ha rgn.cnt 0 (by omega)
  generalize tryCoalesce rgn base size rgn.cnt 0 = o at hjoin hadd
  cases hjoin with
  | none hn =>
    simp only at hadd
    rw [if_neg (by rw [cnt_sub_one L h0 h.cnt_le]; omega), if_neg (by omega)] at hadd
    by_cases hm : rgn.cnt < maxMemblockRegions
    · obtain ⟨region', pos, he, hpos, -, -, -, hnew, -⟩ := addToTable_entries h base size h0 hm
      rw [he] at hadd
      obtain ⟨rfl, -⟩ := Prod.mk.inj (Option.some.inj hadd)
      exact fun a hmem => ⟨pos, show pos < rgn.cnt + 1 by omega,
        show a ∈ (region' pos).addrs by rw [hnew]; exact hmem⟩
    · rw [addToTable, if_pos (not_lt.mp hm)] at hadd
      obtain ⟨-, rfl⟩ := Prod.mk.inj (Option.some.inj hadd)
      omega
  | below j hj hjb =>
    refine joined_covers h0 h.cnt_le hj (fun a hmem => ?_) (fun hnext => ?_) hadd
    · rw [MemblockProperty.mem_addrs]
      simp only [Set.mem_Ico] at hmem ⊢
      omega
    · have := h.sorted j (j + 1) (by omega) hnext
      have := h.below (j + 1) hnext
      simp only
      omega
  | above j hj hja =>
    refine joined_covers h0 h.cnt_le hj (fun a hmem => ?_) (fun hnext => ?_) hadd
    · rw [MemblockProperty.mem_addrs]
      simp only [Set.mem_Ico] at hmem ⊢
      omega
    have := h.sorted j (j + 1) (by omega) hnext
    have := h.below (j + 1) hnext
    have := ha (j + 1) hnext
    simp only
    omega

lemma takeArea_spec (h : mb.reserved.Ordered) (h0 : mb.reserved.cnt ≠ 0)
    (hb : base + size < 2 ^ 64) (ha : mb.reserved.Apart base size) :
    ∃ mb' r, takeArea L mb base size = some (mb', r) ∧ (r ≠ 0 → r = base ∧
      Set.Ico base (base + size) ⊆ mb'.reserved.covers) := by
  have hsome : ∃ r, memblockAddRegion L mb.reserved base size = some r :=
    memblockAddRegion_some (Nat.pos_of_ne_zero h0) h.cnt_le
  obtain ⟨⟨rgn', ret⟩, hadd⟩ := hsome
  refine ⟨_, _, by rw [takeArea, hadd]; rfl, fun hr => ?_⟩
  simp only at hr ⊢
  by_cases hret : ret < 0
  · rw [if_pos hret] at hr
    exact absurd rfl hr
  rw [if_neg hret]
  refine ⟨rfl, ?_⟩
  rcases Nat.eq_zero_or_pos size with rfl | hs
  · simp
  · exact memblockAddRegion_covers h (Nat.pos_of_ne_zero h0) hs hb ha hadd (not_lt.mp hret)

lemma allocStart_spec {p : MemblockProperty} (hk : k < 64)
    (hp : p.base + p.size < 2 ^ 64) (hlow : maxAddr = 0 ∨ size ≤ maxAddr)
    (h : allocStart p size (2 ^ k) maxAddr = some base) :
    2 ^ k ∣ base ∧ base + size ≤ p.base + p.size ∧ (maxAddr ≠ 0 → base + size ≤ maxAddr) := by
  rw [allocStart, addMod_of_lt hp, memblockAllocAnywhere] at h
  split_ifs at h with h1 h2 h3
  · obtain ⟨hd, hle⟩ := memblockAlignDown_sub hk hp (show size ≤ p.base + p.size by omega)
    rw [Option.some.inj h] at hd hle
    exact ⟨hd, hle, fun hne => absurd h2 hne⟩
  · have hmin : size ≤ min (p.base + p.size) maxAddr := by omega
    obtain ⟨hd, hle⟩ := memblockAlignDown_sub hk (by omega) hmin
    rw [Option.some.inj h] at hd hle
    exact ⟨hd, by omega, fun _ => by omega⟩

/-- What `__memblock_alloc_base` gives out: an aligned area inside one memory entry and below the
limit that met no reserved entry and is reserved now. -/
structure MemblockAllocated (mb mb' : Memblock) (k size maxAddr base : ℕ) : Prop where
  aligned : 2 ^ k ∣ base
  inside : ∃ i < mb.memory.cnt, (mb.memory.region i).base ≤ base ∧
    base + size ≤ (mb.memory.region i).base + (mb.memory.region i).size
  below : maxAddr ≠ 0 → base + size ≤ maxAddr
  apart : mb.reserved.Apart base size
  covered : Set.Ico base (base + size) ⊆ mb'.reserved.covers

lemma allocFrom_spec (hk : k < 64) (hm : mb.memory.Ordered) (hr : mb.reserved.Ordered)
    (h0 : mb.reserved.cnt ≠ 0) (hlow : maxAddr = 0 ∨ size ≤ maxAddr) (hfuel : 2 ^ 64 ≤ fuel) :
    ∀ i ≤ mb.memory.cnt, ∃ mb' base, allocFrom L fuel mb size (2 ^ k) maxAddr i = some (mb', base) ∧
      (base ≠ 0 → MemblockAllocated mb mb' k size maxAddr base)
  | 0, _ => ⟨mb, 0, rfl, fun h => absurd rfl h⟩
  | i + 1, hi => by
    obtain ⟨mb₁, base₁, hrest, hspec⟩ := allocFrom_spec hk hm hr h0 hlow hfuel i (by omega)
    have hp := hm.below i (by omega)
    rw [allocFrom]
    cases hstart : allocStart (mb.memory.region i) size (2 ^ k) maxAddr with
    | none => exact ⟨mb₁, base₁, hrest, hspec⟩
    | some base =>
      obtain ⟨hd, hin, hbelow⟩ := allocStart_spec hk hp hlow hstart
      -- the end of the entry or the limit, whichever is lower
      obtain ⟨top, htop, hend, hlim⟩ : ∃ top, base + size ≤ top ∧
          top ≤ (mb.memory.region i).base + (mb.memory.region i).size ∧
          (maxAddr ≠ 0 → top ≤ maxAddr) := by
        by_cases hany : maxAddr = 0
        · exact ⟨_, hin, le_rfl, fun hne => absurd hany hne⟩
        · exact ⟨_, le_min hin (hbelow hany), min_le_left _ _, fun _ => min_le_right _ _⟩
      have hsearch : ∃ r, Pass.run (allocPass mb.reserved (mb.memory.region i).base size (2 ^ k))
          fuel base = some r ∧ ∀ b, r = some b →
            FreeArea mb.reserved k (mb.memory.region i).base size top b :=
        allocPass_area hk hr (by omega) hd htop (by omega)
      obtain ⟨r, hrun, harea⟩ := hsearch
      simp only [hrun]
      cases r with
      | none => exact ⟨mb₁, base₁, hrest, hspec⟩
      | some b =>
        obtain ⟨h1, h2, h3, h4⟩ := harea b rfl
        obtain ⟨mb', res, htake, hres⟩ := takeArea_spec (L := L) hr h0 (by omega) h4
        refine ⟨mb', res, htake, fun hne => ?_⟩
        obtain ⟨rfl, hcov⟩ := hres hne
        exact ⟨h1, ⟨i, by omega, h2, by omega⟩, fun hne => h3.trans (hlim hne), h4, hcov⟩

end LinuxKernel.Mm
