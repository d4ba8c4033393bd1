import LinuxKernel.Proofs.IdrLayers

/-!
# The id allocator over whole runs

Each function keeps the layers as `LayerOk` has them, and what it does to the ids is said on the
whole tree, by `rootUsed` and `rootPtr`. The tree stops one layer short of `MAX_LEVEL`, so it holds
ids of 30 bits at most, and a start at or past that limit is looked up in the slots of smaller ids.
-/

namespace LinuxKernel.Lib

open SlotTree Function

variable {b i : ℕ} {α : Type*} {info : LayerInfo b} {n : Fin (2 ^ b)}
  {ary : Fin (2 ^ b) → IdrSlot b α} {y : IdrSlot b α}
  {leafOk : LayerInfo b → (Fin (2 ^ b) → IdrSlot b α) → Prop} {idp idp' : Idr b α} {id : CInt}
  {L : LongSize}

section

variable (leafOk : LayerInfo b → (Fin (2 ^ b) → IdrSlot b α) → Prop) {idp : Idr b α} {i0 : ℕ}

structure IdrOk (idp : Idr b α) : Prop where
  ok : LayerOk leafOk idp.layers idp.top
  layers_le : idp.layers ≤ maxLevel b - 1
  top : idp.top.isNull = true ↔ idp.layers = 0
  free : FreeOk idp.free

abbrev Idr.Same (idp idp' : Idr b α) : Prop := SameIds idp.layers idp.top idp'.layers idp'.top

abbrev Idr.used (idp : Idr b α) : ℕ → Bool := rootUsed idp.layers idp.top

/-- The first id from `i0` on that is not used in `idp`, and the layers to it. -/
structure EmptyFound (idp : Idr b α) (i0 : ℕ) (id : CInt) (p : IdrLayer b α) (pa : IdrPath b α)
    (layers : ℕ) : Prop where
  level : 1 + pa.length = layers
  layers_le : layers ≤ maxLevel b - 1
  lo : i0 ≤ id.toNat
  hi : id.toNat < 2 ^ (b * layers)
  path : PathOk leafOk 0 true false pa
  onPath : OnPath (id.toNat / 2 ^ b) pa
  ok : LayerOk leafOk 1 p.slot
  bit : p.info.bitmap (digit b 0 id.toNat) = false
  same : SameIds idp.layers idp.top layers (plugAll pa p.slot)
  passed : ∀ j, i0 ≤ j → j < id.toNat → idp.used j = true

def EmptyPost (idp : Idr b α) (i0 : ℕ) : EmptySlot b α → Prop
  | .found id p pa layers free => EmptyFound leafOk idp i0 id p pa layers ∧ FreeOk free
  | .stop rc idp' => rc = -1 ∧ IdrOk leafOk idp' ∧ idp.Same idp'
  | .bug => False

/-- What holds at `build_up:`. -/
structure BuildInv (idp : Idr b α) (i0 : ℕ) (s : Idr b α × CInt) : Prop where
  ok : IdrOk leafOk s.1
  same : idp.Same s.1
  lo : i0 ≤ s.2.toNat
  passed : ∀ j, i0 ≤ j → j < s.2.toNat → idp.used j = true

variable {leafOk}

lemma maxLevel_bound (b : ℕ) : b * (maxLevel b - 1) ≤ 30 := by
  have h := Nat.div_mul_le_self (31 + b - 1) b
  rw [mul_comm] at h
  unfold maxLevel
  rw [Nat.mul_sub, mul_one]
  omega

lemma topLayer_spec (hrule : LeafRule leafOk) (hpos : 0 < maxLevel b - 1) (h : IdrOk leafOk idp)
    {p : IdrLayer b α} {layers built : ℕ} {free : IdFree b α}
    (ht : topLayer idp = some (p, layers, built, free)) :
    GrowInv leafOk idp.layers idp.top layers built p free ∧ layers ≤ maxLevel b - 1 := by
  obtain ⟨top, layers0, free0⟩ := idp
  have hok := h.ok
  cases htop : top with
  | node info ary =>
    subst htop
    simp only [topLayer, Option.some.injEq, Prod.mk.injEq] at ht
    obtain ⟨rfl, rfl, rfl, rfl⟩ := ht
    have hne : layers0 ≠ 0 := fun h0 => by simpa using h.top.2 h0
    exact ⟨⟨Nat.pos_of_ne_zero hne, hok, SameIds.refl _ _, fun _ free hfree => ⟨free, rfl, hfree⟩,
      h.free⟩, h.layers_le⟩
  | leaf a =>
    subst htop
    rcases layers0 with _ | l
    · simpa using h.top.2 rfl
    · rcases hok.node_cases with hc | ⟨_, _, hc⟩ <;> cases hc
  | null =>
    subst htop
    obtain rfl : layers0 = 0 := h.top.1 rfl
    cases hg : getFromFreeList free0 with
    | none => simp [topLayer, hg] at ht
    | some q =>
      obtain ⟨new, free'⟩ := q
      obtain ⟨hbits, hcount, hary, hfree⟩ := h.free.get hg
      simp only [topLayer, hg, Option.map_some, Option.some.injEq, Prod.mk.injEq] at ht
      obtain ⟨rfl, rfl, rfl, rfl⟩ := ht
      refine ⟨⟨Nat.one_pos, LayerOk.fresh hrule hbits hcount hary 0, ?_,
        fun hne => absurd hcount hne, hfree⟩, hpos⟩
      exact SameIds.of_null (SameTree.refl 0 _) (emptyLayer_used 0 hary hbits)

lemma buildUp_spec (hrule : LeafRule leafOk) (hpos : 0 < maxLevel b - 1) {f : ℕ} (hlo : i0 ≤ f)
    (hf : f < 2 ^ (b * (maxLevel b - 1))) (hfree : idp.used f = false) {s : Idr b α × CInt}
    (h : BuildInv leafOk idp i0 s) :
    (buildUp s).Next (BuildInv leafOk idp i0) (EmptyPost leafOk idp i0)
      (fun s => 2 ^ 32 - s.2.toNat) (2 ^ 32 - s.2.toNat) := by
  obtain ⟨idp1, id⟩ := s
  have hcap := maxLevel_bound b
  have hidf : id.toNat ≤ f := by
    by_contra hlt
    have := h.passed f hlo (not_le.1 hlt)
    rw [hfree] at this
    cases this
  have hcap' : 2 ^ (b * (maxLevel b - 1)) ≤ 2 ^ 30 := Nat.pow_le_pow_right (by omega) hcap
  cases ht : topLayer idp1 with
  | none =>
    simp only [buildUp, ht]
    exact ⟨rfl, h.ok, h.same⟩
  | some q =>
    obtain ⟨p, layers, built, free⟩ := q
    obtain ⟨hinv, hle⟩ := topLayer_spec hrule hpos h.ok ht
    have hg := growLoop_spec hrule hcap id (by omega) (Nat.add_sub_cancel' hle) hinv
    cases hgl : growLoop id (maxLevel b - 1 - layers) layers built p free with
    | error e =>
      obtain ⟨top, free'⟩ := e
      rw [hgl] at hg
      simp only [buildUp, ht, hgl]
      obtain ⟨rfl, hfree'⟩ := hg
      exact ⟨rfl, ⟨h.ok.ok, h.ok.layers_le, h.ok.top, hfree'⟩, h.same⟩
    | ok r =>
      obtain ⟨p', layers', free'⟩ := r
      rw [hgl] at hg
      obtain ⟨hok, hsame, hpos', hle', hid', hfree'⟩ := hg
      have hid : id.toNat < 2 ^ (b * layers') := by
        rcases hid' with rfl | hid'
        · omega
        · exact hid'
      have hsame' := h.same.trans hsame
      have hused : ∀ j, j < 2 ^ (b * layers') → idp.used j = usedAt layers' p'.slot j := by
        intro j hj
        rw [Idr.used, ← hsame'.used j, rootUsed, decide_eq_true hj, Bool.true_and]
      obtain ⟨r, he, hpost⟩ :=
        subAlloc_spec hrule ((Nat.mul_le_mul_left b hle').trans hcap) hpos' hok rfl
        hid hfree'
      simp only [buildUp, ht, hgl, he]
      have hpassed : ∀ j k, i0 ≤ j → j < k → k ≤ 2 ^ (b * layers') →
          (∀ j, id.toNat ≤ j → j < k → usedAt layers' p'.slot j = true) → idp.used j = true := by
        intro j k h1 h2 h3 h4
        rcases lt_or_ge j id.toNat with hlt | hge
        · exact h.passed j h1 hlt
        · rw [hused j (by omega)]
          exact h4 j hge h2
      cases r with
      | bug => exact hpost.elim
      | found id2 p2 pa free2 =>
        obtain ⟨hfound, hfree2⟩ := hpost
        refine ⟨⟨hfound.level, hle', h.lo.trans hfound.lo, hfound.hi, hfound.path, hfound.onPath,
          hfound.ok, hfound.bit, hsame'.trans hfound.same.sameIds, fun j h1 h2 => ?_⟩, hfree2⟩
        exact hpassed j _ h1 h2 hfound.hi.le hfound.passed
      | stop rc id2 top free2 =>
        obtain ⟨hstop, hfree2⟩ := hpost
        have hidr : IdrOk leafOk ⟨top, layers', free2⟩ := by
          refine ⟨hstop.ok, hle', ?_, hfree2⟩
          simp [hstop.isNull, hpos'.ne']
        have hsame2 := hsame'.trans hstop.same.sameIds
        rcases hstop.rc with rfl | ⟨rfl, hid2, hall⟩
        · exact ⟨rfl, hidr, hsame2⟩
        refine ⟨⟨hidr, hsame2, ?_, fun j h1 h2 => ?_⟩, ?_⟩
        · have := h.lo
          simp only at this ⊢
          omega
        · exact hpassed j _ h1 h2 hid2.le fun j h3 h4 => hall j h3 (hid2 ▸ h4)
        · have := id2.isLt
          simp only
          omega

lemma idrGetEmptySlot_spec (hrule : LeafRule leafOk) (hpos : 0 < maxLevel b - 1)
    (h : IdrOk leafOk idp)
    (id : CInt) {f : ℕ} (hlo : id.toNat ≤ f) (hf : f < 2 ^ (b * (maxLevel b - 1)))
    (hfree : idp.used f = false) :
    ∃ r, idrGetEmptySlot idp id = some r ∧ EmptyPost leafOk idp id.toNat r :=
  Pass.run_of_next (fun _ hs => buildUp_spec hrule hpos hlo hf hfree hs) _
    ⟨h, SameIds.refl _ _, le_refl _, fun j h1 h2 => by simp only at h2; omega⟩ (Nat.lt_succ_self _)

end

/-- Id `i` now has `x` for its bit and `y` for its pointer, and every other id what it had. -/
structure PutAt (i : ℕ) (x : Bool) (y : IdrSlot b α) (h : ℕ) (t : IdrSlot b α) (h' : ℕ)
    (t' : IdrSlot b α) : Prop where
  used : ∀ j, rootUsed h' t' j = if j = i then x else rootUsed h t j
  ptrs : ∀ j, rootPtr h' t' j = if j = i then y else rootPtr h t j

lemma PutAt.of_same {x : Bool} {h h' k k' : ℕ} {t t' u u' : IdrSlot b α}
    (hu : SameIds h t k u) (hp : PutAt i x y k u k' u') (hu' : SameIds k' u' h' t') :
    PutAt i x y h t h' t' := by
  refine ⟨fun j => ?_, fun j => ?_⟩
  · rw [hu'.used, hp.used, hu.used]
  · rw [hu'.ptrs, hp.ptrs, hu.ptrs]

lemma mod_pow_eq_iff {j k : ℕ} (hi : i < 2 ^ k) (hj : j < 2 ^ k) : j % 2 ^ k = i % 2 ^ k
    ↔ j = i := by rw [Nat.mod_eq_of_lt hi, Nat.mod_eq_of_lt hj]

lemma PutAt.plugAll {layers : ℕ} {pa : IdrPath b α} {info' : LayerInfo b}
    {ary' : Fin (2 ^ b) → IdrSlot b α} {x : Bool}
    (hlevel : 1 + pa.length = layers)
    (hi : i < 2 ^ (b * layers)) (hpath : OnPath (i / 2 ^ b) pa)
    (hbit : ∀ n, info'.bitmap n = if n = digit b 0 i then x else info.bitmap n)
    (hary : ∀ n, ary' n = if n = digit b 0 i then y else ary n) :
    PutAt i x y layers (plugAll pa (.node info ary)) layers (plugAll pa (.node info' ary')) := by
  subst hlevel
  have hpath' : OnPath (i / 2 ^ (b * (0 + 1))) pa := by rwa [zero_add, mul_one]
  have hbits : ∀ j, bitAt LayerInfo.bitmap 1 (.node info' ary') j = if j % 2 ^ (b * 1)
      = i % 2 ^ (b * 1) then x else bitAt LayerInfo.bitmap 1 (.node info ary) j :=
    bitAt_one_replace hbit
  have hused := plugAll_bitAt_replace (h := 0) hpath' hbits
  have hslot : ∀ j, slotAt 1 (.node info' ary') j
      = if j % 2 ^ (b * 1) = i % 2 ^ (b * 1) then y else slotAt 1 (.node info ary) j := fun j => by
    rw [slotAt_node, hary, slotAt_node, slotAt_zero, slotAt_zero]
    refine if_congr ?_ rfl rfl
    rw [mod_pow_succ_eq_iff (h := 0), mul_zero, pow_zero, Nat.mod_one, Nat.mod_one]
    exact (and_iff_left rfl).symm
  have hslots := plugAll_slotAt_replace (by rwa [mul_one]) hslot
  rw [zero_add] at hused
  refine ⟨fun j => ?_, fun j => ?_⟩
  · unfold rootUsed usedAt
    by_cases hj : j < 2 ^ (b * (1 + pa.length))
    · simp only [decide_eq_true hj, Bool.true_and, hused, mod_pow_eq_iff hi hj]
    · simp only [decide_eq_false hj, Bool.false_and, show j ≠ i by omega, if_false]
  · unfold rootPtr
    by_cases hj : j < 2 ^ (b * (1 + pa.length))
    · simp only [hj, if_true, hslots, mod_pow_eq_iff hi hj]
    · simp only [hj, if_false, show j ≠ i by omega]

lemma FrameOk.setTo {l : ℕ} {present full : Bool} {f : SlotFrame (LayerInfo b) α (2 ^ b)}
    (hf : FrameOk leafOk l present full f) (x : Bool) :
    FrameOk leafOk l present x
    ⟨{ f.payload with bitmap := update f.payload.bitmap f.offset x },
      f.slots, f.offset⟩ := by
  refine ⟨hf.layer, hf.count, update_self _ _ _, fun n hn => ?_, hf.kids⟩
  simp only
  rw [update_of_ne hn, hf.bits n hn]

lemma LayerInfo.full_eq_false (h : info.bitmap n = false) :
    info.full = false := by
  rw [LayerInfo.full, decide_eq_false_iff_not]
  intro hall
  rw [hall n] at h
  cases h

lemma SameTree.inner (l : ℕ) (info info' : LayerInfo b) (ary : Fin (2 ^ b) → IdrSlot b α) :
    SameTree (l + 2) (.node info ary) (.node info' ary) := ⟨fun _ => rfl, fun _ => rfl⟩

lemma idrMarkFull_isNull : ∀ (pa : IdrPath b α) (id : CInt) (p : IdrLayer b α),
    (idrMarkFull id p pa).isNull = false
  | [], _, _ => rfl
  | f :: pa, id, p => by
    unfold idrMarkFull
    simp only
    split_ifs
    · exact idrMarkFull_isNull pa _ _
    · exact plugAll_isNull rfl

lemma idrMarkFull_same : ∀ (pa : IdrPath b α) (l : ℕ) (id : CInt) (p : IdrLayer b α),
    SameTree (l + 1 + pa.length) (plugAll pa (.node (p.info.setBit (idIndex b 0 id)) p.ary))
      (idrMarkFull id p pa)
  | [], _, _, _ => SameTree.refl _ _
  | f :: pa, l, id, p => by
    unfold idrMarkFull
    simp only
    split_ifs with hfull
    · have h := idrMarkFull_same pa (l + 1) (id.sshiftRight b) ⟨f.payload,
        update f.slots f.offset (.node (p.info.setBit (idIndex b 0 id)) p.ary)⟩
      rw [List.length_cons, show l + 1 + (pa.length + 1) = l + 1 + 1 + pa.length by omega]
      exact SameTree.trans (SameTree.plugAll (SameTree.inner l _ _ _) pa) h
    · exact SameTree.refl _ _

lemma idrMarkFull_ok : ∀ {pa : IdrPath b α} {l : ℕ} {id : CInt} {p : IdrLayer b α},
    id.toNat < 2 ^ 31 → PathOk leafOk l true false pa → OnPath (id.toNat / 2 ^ b) pa →
    LayerOk leafOk (l + 1) (.node (p.info.setBit (idIndex b 0 id)) p.ary) →
    LayerOk leafOk (l + 1 + pa.length) (idrMarkFull id p pa)
  | [], _, _, _, _, _, _, hp => hp
  | f :: pa, l, id, p, hid, hpa, hon, hp => by
    unfold idrMarkFull
    simp only
    split_ifs with hfull
    · have hshift := sshiftRight_toNat hid b
      have hle := Nat.div_le_self id.toNat (2 ^ b)
      have hup : (id.sshiftRight b).toNat < 2 ^ 31 := by omega
      have hoff : idIndex b 0 (id.sshiftRight b) = f.offset := by
        rw [idIndex_eq 0 hup, hshift]
        exact digit_eq_offset (by rw [mul_zero, pow_zero, Nat.div_one]; exact hon.1)
      rw [List.length_cons, show l + 1 + (pa.length + 1) = l + 1 + 1 + pa.length by omega]
      refine idrMarkFull_ok hup ?_ (by rw [hshift]; exact hon.2) ?_
      · rw [← LayerInfo.full_eq_false hpa.1.bit]
        exact hpa.2
      · rw [hoff]
        exact (hpa.1.setTo true).plug hp rfl hfull
    · exact hpa.plugAll hp rfl (by simpa [slotFull] using hfull)

lemma SameTree.symm {h : ℕ} {t t' : IdrSlot b α} (hs : SameTree h t t') : SameTree h t' t :=
  ⟨fun j => (hs.used j).symm, fun j => (hs.slots j).symm⟩

/-- What `sub_remove` has in hand after its way down, for id `i` of a tree like `t0`: a leaf or a
missing layer, under layers that do not mark it full. -/
structure DownPost (leafOk : LayerInfo b → (Fin (2 ^ b) → IdrSlot b α) → Prop) (i layers l : ℕ)
    (t0 : IdrSlot b α) (pa : IdrPath b α) (q : IdrSlot b α) : Prop where
  level : l + 1 + pa.length = layers
  path : PathOk leafOk l (!q.isNull) false pa
  onPath : OnPath (i / 2 ^ (b * (l + 1))) pa
  ok : LayerOk leafOk (l + 1) q
  same : SameTree layers t0 (plugAll pa q)
  isNull : (plugAll pa q).isNull = t0.isNull

lemma subRemoveDown_zero (id : CInt) (pa : IdrPath b α) (p : IdrSlot b α) :
    subRemoveDown id 0 pa p = (pa, p) := by
  cases p <;> rfl

lemma subRemoveDown_spec (hid : id.toNat < 2 ^ 31) {layers : ℕ} {t0 : IdrSlot b α} :
    ∀ {l : ℕ} {pa : IdrPath b α} {p : IdrSlot b α}, DownPost leafOk id.toNat layers l t0 pa p →
    ∃ l', DownPost leafOk id.toNat layers l' t0 (subRemoveDown id l pa p).1
    (subRemoveDown id l pa p).2 ∧ ((subRemoveDown id l pa p).2.isNull = false → l' = 0)
  | 0, pa, p, h => ⟨0, by rw [subRemoveDown_zero]; exact h, fun _ => rfl⟩
  | l + 1, pa, p, h => by
    rcases h.ok.node_cases with rfl | ⟨info, ary, rfl⟩
    · exact ⟨l + 1, h, fun hn => by simp [subRemoveDown] at hn⟩
    rw [subRemoveDown]
    refine subRemoveDown_spec hid ?_
    have hf : FrameOk leafOk l (!(ary (idIndex b (l + 1) id)).isNull) false
        ⟨info.clearBit (idIndex b (l + 1) id), ary, idIndex b (l + 1) id⟩ :=
      (h.ok.frame (idIndex b (l + 1) id)).setTo false
    have hlevel := h.level
    refine ⟨by rw [List.length_cons]; omega, ⟨hf, ?_⟩, ⟨?_, ?_⟩, h.ok.kids _, ?_, ?_⟩
    · rw [LayerInfo.full_eq_false hf.bit]
      exact h.path
    · rw [idIndex_eq _ hid]
      rfl
    · rw [div_pow_succ]
      exact h.onPath
    · refine h.same.trans ?_
      rw [← hlevel, plugAll, SlotFrame.plug, update_eq_self]
      exact SameTree.plugAll (SameTree.inner l _ _ _) pa
    · have hnull : (plugAll pa (.node info ary)).isNull = false := plugAll_isNull rfl
      rw [← h.isNull, hnull, plugAll]
      exact plugAll_isNull rfl

/-- The layer `p` of level `l` is right once its count is one less, unless it is empty by then. -/
structure UpOk (leafOk : LayerInfo b → (Fin (2 ^ b) → IdrSlot b α) → Prop) (l : ℕ)
    (p : IdrLayer b α) :
    Prop where
  full : p.info.full = false
  ok : LayerOk leafOk (l + 1) (.node { p.info with count := p.info.count - 1 } p.ary)

lemma UpOk.empty (hrule : LeafRule leafOk) {l : ℕ} {p : IdrLayer b α} (h : UpOk leafOk l p)
    (h0 : p.info.count - 1 = 0) : SameTree (l + 1) .null p.slot := by
  have he := LayerOk.empty (p := ⟨{ p.info with count := p.info.count - 1 }, p.ary⟩) hrule h.ok h0
  exact emptyLayer_used l he.1 he.2

lemma FrameOk.upOk {l : ℕ} {f : SlotFrame (LayerInfo b) α (2 ^ b)}
    (hf : FrameOk leafOk l true false f) :
    UpOk leafOk (l + 1) ⟨f.payload, update f.slots f.offset .null⟩ := by
  refine ⟨LayerInfo.full_eq_false hf.bit, ?_⟩
  have hf' : FrameOk leafOk l false false
      ⟨{ f.payload with count := f.payload.count - 1 }, f.slots, f.offset⟩ := by
    refine ⟨hf.layer, ?_, hf.bit, hf.bits, hf.kids⟩
    simp only [hf.count]
    simp
  exact hf'.plug (LayerOk.null _) rfl rfl

lemma subRemoveDown_plugAll (hid : id.toNat < 2 ^ 31) :
    ∀ {pa : IdrPath b α} {l : ℕ} {present : Bool} {q : IdrSlot b α} (pa0 : IdrPath b α),
    PathOk leafOk l present false pa → OnPath (id.toNat / 2 ^ (b * (l + 1))) pa →
    ∃ pa', subRemoveDown id (l + pa.length) pa0 (plugAll pa q) = subRemoveDown id l (pa' ++ pa0) q
      ∧ pa'.length = pa.length ∧ PathOk leafOk l present false pa'
      ∧ OnPath (id.toNat / 2 ^ (b * (l + 1))) pa' ∧ ∀ t, plugAll pa' t = plugAll pa t
  | [], l, _, _, pa0, hp, ho => ⟨[], rfl, rfl, hp, ho, fun _ => rfl⟩
  | f :: pa, l, present, q, pa0, hp, ho => by
    have hup := hp.2
    have hon := ho.2
    rw [LayerInfo.full_eq_false hp.1.bit] at hup
    rw [div_pow_succ] at hon
    obtain ⟨pa1, he, hlen, hpa1, hon1, hplug⟩ :=
      subRemoveDown_plugAll hid (q := f.plug q) pa0 hup hon
    have hn : idIndex b (l + 1) id = f.offset := by
      rw [idIndex_eq _ hid]
      exact digit_eq_offset ho.1
    have hclear : f.payload.clearBit f.offset = f.payload := by
      rw [LayerInfo.clearBit, ← hp.1.bit, update_eq_self]
    refine ⟨⟨f.payload, update f.slots f.offset q, f.offset⟩ :: pa1, ?_,
      by simp [hlen], ⟨?_, ?_⟩, ⟨ho.1, ?_⟩, fun t => ?_⟩
    · rw [List.length_cons, show l + (pa.length + 1) = l + 1 + pa.length by omega]
      refine he.trans ?_
      rw [SlotFrame.plug, subRemoveDown, hn, update_self, hclear]
      rfl
    · refine ⟨hp.1.layer, ?_, hp.1.bit, fun n hne => ?_, fun n hne => ?_⟩
      · simp only [update_idem]
        exact hp.1.count
      · simp only [update_of_ne hne]
        exact hp.1.bits n hne
      · simp only [update_of_ne hne]
        exact hp.1.kids n hne
    · rw [LayerInfo.full_eq_false hp.1.bit]
      exact hpa1
    · rw [div_pow_succ]
      exact hon1
    · rw [plugAll, hplug, plugAll, SlotFrame.plug, SlotFrame.plug, update_idem]

lemma SameTree.recount (l : ℕ) (p : IdrLayer b α) (count : ℤ) :
    SameTree (l + 1) p.slot (.node { p.info with count := count } p.ary) := by
  refine ⟨fun j => ?_, fun _ => rfl⟩
  cases l <;> rfl

lemma subRemoveUp_spec (hrule : LeafRule leafOk) :
    ∀ {pa : IdrPath b α} {l : ℕ} {p : IdrLayer b α},
    UpOk leafOk l p → PathOk leafOk l true false pa →
    LayerOk leafOk (l + 1 + pa.length) (subRemoveUp p pa).1
      ∧ SameTree (l + 1 + pa.length) (plugAll pa p.slot) (subRemoveUp p pa).1
      ∧ (subRemoveUp p pa).1.isNull = (subRemoveUp p pa).2
  | [], l, p, h, _ => by
    unfold subRemoveUp
    split_ifs with h0
    · exact ⟨LayerOk.null _, (h.empty hrule h0).symm, rfl⟩
    · exact ⟨h.ok, SameTree.recount l p _, rfl⟩
  | f :: pa, l, p, h, hpa => by
    have hlen : l + 1 + (f :: pa).length = l + 1 + 1 + pa.length := by
      rw [List.length_cons]
      omega
    unfold subRemoveUp
    split_ifs with h0
    · have hfull := LayerInfo.full_eq_false hpa.1.bit
      obtain ⟨hok, hsame, hnull⟩ := subRemoveUp_spec hrule hpa.1.upOk (hfull ▸ hpa.2)
      refine ⟨hlen ▸ hok, ?_, hnull⟩
      refine (SameTree.plugAll (h.empty hrule h0).symm (f :: pa)).trans ?_
      rw [hlen]
      exact hsame
    · exact ⟨hpa.plugAll h.ok rfl h.full, SameTree.plugAll (SameTree.recount l p _) _,
        plugAll_isNull rfl⟩

abbrev Idr.marked (idp : Idr b α) (i : ℕ) : Bool := usedAt idp.layers idp.top i

lemma DownPost.start (h : IdrOk leafOk idp) (hpos : 0 < idp.layers) (i : ℕ) :
    DownPost leafOk i idp.layers (idp.layers - 1) idp.top [] idp.top := by
  refine ⟨Nat.sub_add_cancel hpos, trivial, trivial, ?_, SameTree.refl _ _, rfl⟩
  rw [Nat.sub_add_cancel hpos]
  exact h.ok

lemma UpOk.leaf (hrule : LeafRule leafOk)
    (h : LayerOk leafOk 1 (.node info ary)) (hbit : info.bitmap n = true) :
    UpOk leafOk 0 ⟨info.clearBit n, update ary n .null⟩ := by
  refine ⟨LayerInfo.full_eq_false (update_self _ _ _),
    ⟨h.1.1, hrule.remove _ _ _ h.1.2 hbit⟩, fun m => ?_⟩
  simp only
  by_cases hm : m = n
  · rw [hm, update_self]
    exact LayerOk.null _
  · rw [update_of_ne hm]
    exact h.kids m

lemma IdrOk.emptied (hle : idp.layers ≤ maxLevel b - 1) (hfree : FreeOk idp.free)
    (hpos : 0 < idp.layers) {t : IdrSlot b α} (ht : LayerOk leafOk idp.layers t) :
    IdrOk leafOk { idp with top := t, layers := if t.isNull then 0 else idp.layers }
      ∧ SameIds idp.layers t (if t.isNull then 0 else idp.layers) t := by
  cases hn : t.isNull with
  | true =>
    rw [eq_null_of_isNull hn]
    exact ⟨⟨LayerOk.null _, Nat.zero_le _, by simp, hfree⟩,
      SameIds.of_null (SameTree.refl _ _) (SameTree.refl _ _)⟩
  | false => exact ⟨⟨ht, hle, by simp [hn, hpos.ne'], hfree⟩, SameIds.refl _ _⟩

lemma subRemove_found (hrule : LeafRule leafOk) (hid : id.toNat < 2 ^ 31)
    (hle : idp.layers ≤ maxLevel b - 1) (hfree : FreeOk idp.free) {pa : IdrPath b α}
    (hdown : subRemoveDown id (idp.layers - 1) [] idp.top = (pa, .node info ary))
    (hlevel : 1 + pa.length = idp.layers) (hpath : PathOk leafOk 0 true false pa)
    (hon : OnPath (id.toNat / 2 ^ b) pa) (hbit : info.bitmap (digit b 0 id.toNat) = true)
    (hup : UpOk leafOk 0 ⟨info.clearBit (digit b 0 id.toNat),
      update ary (digit b 0 id.toNat) .null⟩) :
    IdrOk leafOk (subRemove idp id)
      ∧ (id.toNat < 2 ^ (b * idp.layers) → PutAt id.toNat false .null idp.layers
        (plugAll pa (.node info ary)) (subRemove idp id).layers (subRemove idp id).top) := by
  obtain ⟨hok, hsame, hnull⟩ := subRemoveUp_spec hrule hup hpath
  rw [zero_add, hlevel] at hok hsame
  obtain ⟨hidr, hsame'⟩ := IdrOk.emptied hle hfree (by omega) hok
  simp only [subRemove, hdown, idIndex_eq 0 hid, hbit, if_true, ← hnull]
  refine ⟨hidr, fun hlt => ?_⟩
  refine PutAt.of_same (SameIds.refl _ _) (PutAt.plugAll hlevel hlt hon ?_ ?_)
    (hsame.sameIds.trans hsame')
  · exact fun n => update_apply _ _ _ _
  · exact fun n => update_apply _ _ _ _

lemma subRemove_spec (hrule : LeafRule leafOk) (h : IdrOk leafOk idp) (hid : id.toNat < 2 ^ 31) :
    IdrOk leafOk (subRemove idp id) ∧ (idp.marked id.toNat = false → idp.Same (subRemove idp id))
      ∧ (idp.marked id.toNat = true → id.toNat < 2 ^ (b * idp.layers) →
        PutAt id.toNat false .null idp.layers idp.top (subRemove idp id).layers
        (subRemove idp id).top) := by
  rcases Nat.eq_zero_or_pos idp.layers with h0 | hpos
  · have htop := eq_null_of_isNull (h.top.2 h0)
    have hnone : subRemove idp id = idp := by
      obtain ⟨top, layers, free⟩ := idp
      simp only at h0 htop
      subst h0 htop
      rfl
    rw [hnone]
    refine ⟨h, fun _ => SameIds.refl _ _, fun hm => ?_⟩
    rw [Idr.marked, htop, usedAt, bitAt_null] at hm
    cases hm
  obtain ⟨l, hd, hl⟩ := subRemoveDown_spec hid (DownPost.start h hpos id.toNat)
  have hne : idp.top.isNull = false := by simpa using mt h.top.1 hpos.ne'
  cases hdown : subRemoveDown id (idp.layers - 1) [] idp.top with
  | mk pa q =>
    simp only [hdown] at hd hl
    have hmark : idp.marked id.toNat = usedAt (l + 1) q id.toNat := by
      rw [Idr.marked, ← hd.same.used, ← hd.level]
      exact plugAll_bitAt hd.onPath
    have hkeep : slotFull q = false → IdrOk leafOk { idp with top := plugAll pa q } := by
      intro hq
      refine ⟨?_, h.layers_le, ?_, h.free⟩
      · have := hd.path.plugAll hd.ok (Bool.not_not _).symm hq
        rwa [hd.level] at this
      · simp only [hd.isNull, hne, hpos.ne']
        simp
    rcases hd.ok.node_cases with rfl | ⟨info, ary, rfl⟩
    · simp only [subRemove, hdown]
      refine ⟨hkeep rfl, fun _ => hd.same.sameIds, fun hm => ?_⟩
      rw [hmark, usedAt, bitAt_null] at hm
      cases hm
    obtain rfl : l = 0 := hl rfl
    have hon := hd.onPath
    have hlevel := hd.level
    rw [zero_add] at hlevel
    rw [zero_add, mul_one] at hon
    rw [usedAt, bitAt_one] at hmark
    cases hbit : info.bitmap (digit b 0 id.toNat) with
    | true =>
      obtain ⟨hok, hput⟩ :=
        subRemove_found hrule hid h.layers_le h.free hdown hlevel hd.path hon hbit
        (UpOk.leaf hrule hd.ok hbit)
      refine ⟨hok, fun hm => ?_,
        fun _ hlt => PutAt.of_same hd.same.sameIds (hput hlt) (SameIds.refl _ _)⟩
      rw [hmark, hbit] at hm
      cases hm
    | false =>
      simp only [subRemove, hdown, idIndex_eq 0 hid, hbit, Bool.false_eq_true, if_false]
      refine ⟨hkeep (LayerInfo.full_eq_false hbit), fun _ => hd.same.sameIds, fun hm => ?_⟩
      rw [hmark, hbit] at hm
      cases hm

lemma idrShrink_spec (h : IdrOk leafOk idp) :
    IdrOk leafOk (idrShrink idp) ∧ idp.Same (idrShrink idp) := by
  obtain ⟨top, layers, free⟩ := idp
  cases top with
  | null => exact ⟨h, SameIds.refl _ _⟩
  | leaf a => exact ⟨h, SameIds.refl _ _⟩
  | node info ary =>
    simp only [idrShrink]
    split_ifs with hc
    · obtain ⟨hcount, hlay, hchild⟩ := hc
      obtain ⟨l, rfl⟩ : ∃ l, layers = l + 2 := ⟨layers - 2, by omega⟩
      have hone : slotCount ary = 1 := by
        have hc := h.ok.1.count
        rw [hcount] at hc
        exact_mod_cast hc.symm
      have hchild' : (ary 0).isNull = false := by simpa using hchild
      have hary : ∀ n, n ≠ 0 → ary n = .null := fun n hn => slotCount_eq_one hone hchild' hn
      refine ⟨⟨h.ok.kids 0, (Nat.le_succ _).trans h.layers_le, ?_, h.free⟩,
        (SameIds.raise hary).symm⟩
      simp only [hchild']
      simp
    · exact ⟨h, SameIds.refl _ _⟩

lemma trimFree_spec : ∀ {list : List (IdrLayer b α)} {cnt : ℕ}, FreeOk ⟨list, cnt⟩ →
    FreeOk (trimFree list cnt)
  | [], _, h => h
  | p :: list, cnt, h => by
    rw [trimFree]
    split_ifs
    · refine trimFree_spec ⟨fun q hq => h.layers q (List.mem_cons_of_mem _ hq), ?_⟩
      have := h.cnt
      simp only [List.length_cons] at this ⊢
      omega
    · exact h

lemma maskId_toNat (id : CInt) : (maskId id).toNat = id.toNat % 2 ^ 31 := by
  rw [maskId, BitVec.toNat_and, show (0x7fffffff#32).toNat = 2 ^ 31 - 1 from rfl,
    Nat.and_two_pow_sub_one_eq_mod]

lemma maskId_lt (id : CInt) : (maskId id).toNat < 2 ^ 31 := by
  rw [maskId_toNat]
  exact Nat.mod_lt _ (by positivity)

lemma maskId_of_lt (h : id.toNat < 2 ^ 31) : maskId id = id := by
  refine BitVec.eq_of_toNat_eq ?_
  rw [maskId_toNat, Nat.mod_eq_of_lt h]

lemma idrRemove_shrunk (h : IdrOk leafOk (subRemove idp (maskId id))) :
    IdrOk leafOk (idrRemove idp id) ∧ (subRemove idp (maskId id)).Same (idrRemove idp id) := by
  obtain ⟨hok, hsame⟩ := idrShrink_spec h
  exact ⟨⟨hok.ok, hok.layers_le, hok.top, trimFree_spec hok.free⟩, hsame⟩

lemma idrRemove_spec (hrule : LeafRule leafOk) (h : IdrOk leafOk idp) (id : CInt) :
    IdrOk leafOk (idrRemove idp id)
      ∧ (idp.marked (maskId id).toNat = false → idp.Same (idrRemove idp id))
      ∧ (idp.marked (maskId id).toNat = true → (maskId id).toNat < 2 ^ (b * idp.layers) →
        PutAt (maskId id).toNat false .null idp.layers idp.top (idrRemove idp id).layers
          (idrRemove idp id).top) := by
  obtain ⟨hok, hkeep, hput⟩ := subRemove_spec hrule h (maskId_lt id)
  obtain ⟨hok', hsame⟩ := idrRemove_shrunk hok
  exact ⟨hok', fun hm => (hkeep hm).trans hsame,
    fun hm hlt => PutAt.of_same (SameIds.refl _ _) (hput hm hlt) hsame⟩

lemma findLoop_spec (hid : id.toNat < 2 ^ 31) : ∀ {h : ℕ} {t : IdrSlot b α},
    LayerOk leafOk h t → findLoop id h t = some (slotAt h t id.toNat)
  | 0, t, _ => by cases t <;> rfl
  | h + 1, t, ht => by
    rcases ht.node_cases with rfl | ⟨info, ary, rfl⟩
    · rw [slotAt_null]
      rfl
    · rw [findLoop, if_pos ht.layer, idIndex_eq h hid, slotAt_node]
      exact findLoop_spec hid (ht.kids _)

lemma IdrOk.layers_lt (h : IdrOk leafOk idp) : b * idp.layers ≤ 30 :=
  (Nat.mul_le_mul_left b h.layers_le).trans (maxLevel_bound b)

lemma idrFind_spec (h : IdrOk leafOk idp) (id : CInt) :
    idrFind idp id = some (rootPtr idp.layers idp.top (maskId id).toNat) := by
  obtain ⟨top, layers, free⟩ := idp
  have hcap := h.layers_lt
  have hok := h.ok
  have hid := maskId_lt id
  simp only at hcap hok
  cases hl : layers with
  | zero =>
    have htop : top = .null := eq_null_of_isNull (h.top.2 hl)
    rw [htop, rootPtr, slotAt_null, ite_self]
    rfl
  | succ l =>
    rw [hl] at hok
    rcases hok.node_cases with rfl | ⟨info, ary, rfl⟩
    · rw [rootPtr, slotAt_null, ite_self]
      rfl
    rw [hl] at hcap
    simp only [idrFind, hok.layer, mul_comm (l + 1) b, shiftLeft_sle hcap hid, rootPtr]
    by_cases hlt : (maskId id).toNat < 2 ^ (b * (l + 1))
    · rw [if_neg (by simpa using hlt), if_pos hlt, findLoop_spec hid hok]
    · rw [if_pos (by simpa using hlt), if_neg hlt]

def bitCount {n : ℕ} (f : Fin n → Bool) : ℕ := (Finset.univ.filter fun i => f i = true).card

lemma bitCount_set {n : ℕ} {f : Fin n → Bool} {i : Fin n} (h : f i = false) :
    bitCount (update f i true) = bitCount f + 1 := by
  have he : (Finset.univ.filter fun j => update f i true j = true)
      = insert i (Finset.univ.filter fun j => f j = true) := by
    ext j
    by_cases hj : j = i <;> simp [hj]
  rw [bitCount, he, Finset.card_insert_of_notMem (by simp [h]), bitCount]

lemma bitCount_clear {n : ℕ} {f : Fin n → Bool} {i : Fin n} (h : f i = true) :
    bitCount (update f i false) + 1 = bitCount f := by
  have hset := bitCount_set (f := update f i false) (i := i) (update_self _ _ _)
  rw [update_idem, ← h, update_eq_self] at hset
  exact hset.symm

lemma bitCount_eq_zero {n : ℕ} {f : Fin n → Bool} (h : bitCount f = 0) (i : Fin n) :
    f i = false := by
  have := Finset.filter_eq_empty_iff.1 (Finset.card_eq_zero.1 h) (Finset.mem_univ i)
  simpa using this

/-- A leaf of an IDR: `count` counts the bits, and a pointer stands under a set bit. -/
structure IdrLeaf (info : LayerInfo b) (ary : Fin (2 ^ b) → IdrSlot b α) : Prop where
  count : info.count = bitCount info.bitmap
  ary : ∀ n, info.bitmap n = false → ary n = .null

lemma idrLeaf_rule : LeafRule (b := b) (α := α) IdrLeaf where
  zero := ⟨by simp [bitCount], fun _ _ => rfl⟩
  empty info ary h h0 := by
    have hbits : ∀ n, info.bitmap n = false :=
      bitCount_eq_zero (by exact_mod_cast h.count.symm.trans h0)
    exact ⟨fun n => h.ary n (hbits n), hbits⟩
  remove info ary n h hn := by
    refine ⟨?_, fun m hm => ?_⟩
    · have hc := bitCount_clear hn
      simp only [LayerInfo.clearBit, h.count, ← hc]
      simp
    · by_cases he : m = n
      · rw [he, update_self]
      · rw [update_of_ne he]
        exact h.ary m (by simpa [LayerInfo.clearBit, he] using hm)

lemma IdrLeaf.insert (h : IdrLeaf info ary) (hn : info.bitmap n = false) (y : IdrSlot b α) :
    IdrLeaf (LayerInfo.setBit { info with count := info.count + 1 } n)
    (update ary n y) := by
  refine ⟨?_, fun m hm => ?_⟩
  · simp only [LayerInfo.setBit, bitCount_set hn, h.count]
    push_cast
    rfl
  have hne : m ≠ n := by
    rintro rfl
    simp [LayerInfo.setBit] at hm
  rw [update_of_ne hne]
  exact h.ary m (by simpa [LayerInfo.setBit, hne] using hm)

lemma LayerOk.ptrSlot
    (ptr : Option α) :
    LayerOk leafOk 0 (ptrSlot ptr) := by
  cases ptr <;> trivial

lemma LayerOk.update_leaf {info' : LayerInfo b} (h : LayerOk IdrLeaf 1 (.node info ary))
    (hl : info'.layer = info.layer)
    (hy : LayerOk (IdrLeaf (α := α) (b := b)) 0 y)
    (hleaf : IdrLeaf info' (update ary n y)) :
    LayerOk IdrLeaf 1 (.node info' (update ary n y)) := by
  refine ⟨⟨hl.trans h.1.1, hleaf⟩, fun m => ?_⟩
  by_cases hm : m = n
  · rw [hm, update_self]
    exact hy
  · rw [update_of_ne hm]
    exact h.kids m

lemma idrGetNewAbove_spec (hpos : 0 < maxLevel b - 1) (h : IdrOk IdrLeaf idp)
    (ptr : Option α) (id : CInt) {f : ℕ} (hlo : id.toNat ≤ f) (hf : f < 2 ^ (b * (maxLevel b - 1)))
    (hfree : idp.used f = false) :
    ∃ res idp', idrGetNewAbove idp ptr id = some (res, idp') ∧ IdrOk IdrLeaf idp' ∧ match res with
        | .error e => e = -EAGAIN ∧ idp.Same idp'
        | .ok id' => id'.toNat < 2 ^ 30 ∧ id.toNat ≤ id'.toNat ∧ idp.used id'.toNat = false
          ∧ (∀ j, id.toNat ≤ j → j < id'.toNat → idp.used j = true)
          ∧ PutAt id'.toNat true (Lib.ptrSlot ptr) idp.layers idp.top idp'.layers idp'.top := by
  obtain ⟨r, he, hpost⟩ := idrGetEmptySlot_spec idrLeaf_rule hpos h id hlo hf hfree
  simp only [idrGetNewAbove, he]
  cases r with
  | bug => exact hpost.elim
  | stop rc idp' =>
    obtain ⟨rfl, hok, hsame⟩ := hpost
    exact ⟨_, _, rfl, hok, rfl, hsame⟩
  | found id' p pa layers free =>
    obtain ⟨hfound, hfree'⟩ := hpost
    have hlimit : id'.toNat < 2 ^ 30 := hfound.hi.trans_le (Nat.pow_le_pow_right (by omega)
      ((Nat.mul_le_mul_left b hfound.layers_le).trans (maxLevel_bound b)))
    have hlt : id'.toNat < 2 ^ 31 := by omega
    have hn := idIndex_eq (b := b) 0 hlt
    have hlevel := hfound.level
    refine ⟨_, _, rfl, ⟨?_, hfound.layers_le, ?_, hfree'⟩, hlimit, hfound.lo, ?_, hfound.passed, ?_⟩
    · rw [← hlevel]
      refine idrMarkFull_ok hlt hfound.path hfound.onPath ?_
      simp only [hn]
      exact hfound.ok.update_leaf rfl (LayerOk.ptrSlot ptr) (hfound.ok.1.2.insert hfound.bit _)
    · simp only [idrMarkFull_isNull, ← hlevel]
      simp
    · rw [Idr.used, ← hfound.same.used, rootUsed, decide_eq_true hfound.hi, Bool.true_and, ← hlevel]
      refine (plugAll_bitAt (h := 0) ?_).trans hfound.bit
      rw [zero_add, mul_one]
      exact hfound.onPath
    · have hmark := idrMarkFull_same pa 0 id' ⟨{ p.info with count := p.info.count + 1 },
        update p.ary (idIndex b 0 id') (Lib.ptrSlot ptr)⟩
      rw [zero_add, hlevel] at hmark
      refine PutAt.of_same hfound.same
        (PutAt.plugAll hlevel hfound.hi hfound.onPath ?_ ?_) hmark.sameIds
      · rw [hn]
        exact fun n => update_apply _ _ _ _
      · rw [hn]
        exact fun n => update_apply _ _ _ _

/-- `t'` is `t` with the pointer of id `i` replaced. -/
structure Repointed (ptr : Option α) (i h : ℕ) (t t' : IdrSlot b α) : Prop where
  ok : LayerOk IdrLeaf h t'
  full : slotFull t' = slotFull t
  isNull : t'.isNull = t.isNull
  used : ∀ j, usedAt h t' j = usedAt h t j
  slots : ∀ j, slotAt h t' j
    = if j % 2 ^ (b * h) = i % 2 ^ (b * h) then Lib.ptrSlot ptr else slotAt h t j

lemma replaceLoop_spec (ptr : Option α) (hid : id.toNat < 2 ^ 31) :
    ∀ {l : ℕ} {t : IdrSlot b α}, LayerOk IdrLeaf (l + 1) t → (usedAt (l + 1) t id.toNat = true →
      (replaceLoop ptr id l t).1 = .ok (slotAt (l + 1) t id.toNat)
        ∧ Repointed ptr id.toNat (l + 1) t (replaceLoop ptr id l t).2)
    ∧ (usedAt (l + 1) t id.toNat = false → replaceLoop ptr id l t = (.error (-ENOENT), t))
  | 0, t, ht => by
    rcases ht.node_cases with rfl | ⟨info, ary, rfl⟩
    · exact ⟨fun hu => by simp [usedAt] at hu, fun _ => rfl⟩
    rw [usedAt, bitAt_one, replaceLoop, idIndex_eq 0 hid]
    refine ⟨fun hu => ?_, fun hu => by rw [if_neg (by simp [hu])]⟩
    rw [if_pos hu]
    refine ⟨rfl, ?_, rfl, rfl, fun _ => rfl, fun j => ?_⟩
    · refine ht.update_leaf rfl (LayerOk.ptrSlot ptr) ⟨ht.1.2.count, fun n hn => ?_⟩
      have hne : n ≠ digit b 0 id.toNat := by
        rintro rfl
        rw [hu] at hn
        cases hn
      rw [update_of_ne hne]
      exact ht.1.2.ary n hn
    · refine slotAt_replace (fun j => ?_) j
      rw [mul_zero, pow_zero, Nat.mod_one, Nat.mod_one, if_pos rfl]
      rfl
  | l + 1, t, ht => by
    rcases ht.node_cases with rfl | ⟨info, ary, rfl⟩
    · exact ⟨fun hu => by simp [usedAt] at hu, fun _ => rfl⟩
    rw [usedAt, bitAt_succ, replaceLoop, idIndex_eq (l + 1) hid]
    obtain ⟨hyes, hno⟩ := replaceLoop_spec ptr hid (ht.kids (digit b (l + 1) id.toNat))
    refine ⟨fun hu => ?_, fun hu => ?_⟩
    · obtain ⟨he, hre⟩ := hyes hu
      refine ⟨he, ?_, rfl, rfl, bitAt_succ_congr hre.used, slotAt_replace hre.slots⟩
      exact (ht.frame (digit b (l + 1) id.toNat)).plug hre.ok
        (by rw [hre.isNull, Bool.not_not]) hre.full
    · rw [hno hu, update_eq_self]

lemma idrReplace_spec (h : IdrOk IdrLeaf idp) (ptr : Option α) (id : CInt) :
    IdrOk IdrLeaf (idrReplace idp ptr id).2 ∧ match (idrReplace idp ptr id).1 with
        | .error _ => idp.used (maskId id).toNat = false ∧ (idrReplace idp ptr id).2 = idp
        | .ok old => idp.used (maskId id).toNat = true
            ∧ old = rootPtr idp.layers idp.top (maskId id).toNat
          ∧ PutAt (maskId id).toNat true (Lib.ptrSlot ptr) idp.layers idp.top
            (idrReplace idp ptr id).2.layers (idrReplace idp ptr id).2.top := by
  obtain ⟨top, layers, free⟩ := idp
  have hcap := h.layers_lt
  have hok := h.ok
  have hid := maskId_lt id
  simp only at hcap hok
  cases hl : layers with
  | zero =>
    obtain rfl : top = .null := eq_null_of_isNull (h.top.2 hl)
    subst hl
    refine ⟨h, ?_, rfl⟩
    rw [Idr.used, rootUsed, usedAt, bitAt_null, Bool.and_false]
  | succ l =>
    subst hl
    rcases hok.node_cases with rfl | ⟨info, ary, rfl⟩
    · exact absurd (h.top.1 rfl) (Nat.succ_ne_zero l)
    simp only [idrReplace, hok.layer, mul_comm (l + 1) b, shiftLeft_sle hcap hid]
    by_cases hlt : (maskId id).toNat < 2 ^ (b * (l + 1))
    · rw [if_neg (by simpa using hlt)]
      have hused : ∀ t : IdrSlot b α,
          rootUsed (l + 1) t (maskId id).toNat = usedAt (l + 1) t (maskId id).toNat :=
        fun t => by rw [rootUsed, decide_eq_true hlt, Bool.true_and]
      obtain ⟨hyes, hno⟩ := replaceLoop_spec ptr hid hok
      simp only [Idr.used, hused]
      cases hu : usedAt (l + 1) (.node info ary) (maskId id).toNat with
      | false =>
        rw [hno hu]
        exact ⟨h, rfl, rfl⟩
      | true =>
        obtain ⟨he, hre⟩ := hyes hu
        refine ⟨⟨hre.ok, h.layers_le, ?_, h.free⟩, ?_⟩
        · simp only [hre.isNull]
          simp
        simp only [he]
        refine ⟨trivial, by rw [rootPtr, if_pos hlt], fun j => ?_, fun j => ?_⟩
        · split_ifs with hj
          · rw [hj, hused, hre.used, hu]
          · rw [rootUsed, hre.used, rootUsed]
        unfold rootPtr
        by_cases hj : j < 2 ^ (b * (l + 1))
        · rw [if_pos hj, if_pos hj, hre.slots]
          exact if_congr (mod_pow_eq_iff hlt hj) rfl rfl
        · rw [if_neg hj, if_neg hj, if_neg (by omega)]
    · rw [if_pos (by simpa using hlt)]
      refine ⟨h, ?_, rfl⟩
      rw [Idr.used, rootUsed, decide_eq_false hlt, Bool.false_and]

abbrev Ids (α : Type*) := ℕ → Option (Option α)

inductive IdrCall (α : Type*) where
    | preGet (avail : ℕ)
  | getNewAbove (ptr : Option α) (startingId : CInt)
  | replace (ptr : Option α) (id : CInt)
  | remove (id : CInt)

def IdrCall.exec : IdrCall α → Idr b α → Ids α → Option (Idr b α × Ids α)
  | .preGet avail, idp, ids => some ((idrPreGet avail idp).2, ids)
  | .getNewAbove ptr startingId, idp, ids =>
    (idrGetNewAbove idp ptr startingId).map fun
      | (.ok id, idp) => (idp, Function.update ids id.toNat (some ptr))
      | (.error _, idp) => (idp, ids)
  | .replace ptr id, idp, ids =>
    match idrReplace idp ptr id with
    | (.ok _, idp) => some (idp, Function.update ids (maskId id).toNat (some ptr))
    | (.error _, idp) => some (idp, ids)
  | .remove id, idp, ids => some (idrRemove idp id, Function.update ids (maskId id).toNat none)

inductive IdrReach (ok : Idr b α → Ids α → IdrCall α → Prop) : Idr b α → Ids α → Prop
  | init : IdrReach ok idrInit fun _ => none
  | step {idp idp' : Idr b α} {ids ids' : Ids α} {c : IdrCall α} : IdrReach ok idp ids →
      ok idp ids c → c.exec idp ids = some (idp', ids') → IdrReach ok idp' ids'

/-- The calls of a caller who frees what it allocated. -/
def Lawful (ids : Ids α) : IdrCall α → Prop
  | .preGet _ => True
  | .getNewAbove _ startingId => startingId.toNat < 2 ^ 31
  | .replace _ _ => False
  | .remove id => (ids (maskId id).toNat).isSome

def RoomAbove (ids : Ids α) (start : CInt) : Prop := ∃ f,
    start.toNat ≤ f ∧ f < 2 ^ 30 ∧ ids f = none

def Roomy (ids : Ids α) : IdrCall α → Prop
  | .getNewAbove _ startingId => RoomAbove ids startingId
  | _ => True

/-- The id removed is one the tree has a place for, or its slot is that of no id in use. -/
def InTree (idp : Idr b α) : IdrCall α → Prop
  | .remove id => (maskId id).toNat < 2 ^ (b * idp.layers) ∨ idp.marked (maskId id).toNat = false
  | _ => True

/-- The IDR holds these ids. -/
structure IdrHolds (idp : Idr b α) (ids : Ids α) : Prop where
  ok : IdrOk IdrLeaf idp
  used : ∀ j, idp.used j = (ids j).isSome
  ptrs : ∀ j, rootPtr idp.layers idp.top j = ptrSlot (ids j).join

variable {ids : Ids α} {c : IdrCall α}

lemma IdrHolds.same (h : IdrHolds idp ids) (hok : IdrOk IdrLeaf idp') (hs : idp.Same idp') :
    IdrHolds idp' ids :=
  ⟨hok, fun j => (hs.used j).trans (h.used j), fun j => (hs.ptrs j).trans (h.ptrs j)⟩

lemma IdrHolds.put (h : IdrHolds idp ids) (hok : IdrOk IdrLeaf idp')
    {x : Option (Option α)}
    (hp : PutAt i x.isSome (ptrSlot x.join) idp.layers idp.top idp'.layers idp'.top) :
    IdrHolds idp' (update ids i x) := by
  refine ⟨hok, fun j => ?_, fun j => ?_⟩
  · rw [Idr.used, hp.used, update_apply]
    split_ifs
    · rfl
    · exact h.used j
  · rw [hp.ptrs, update_apply]
    split_ifs
    · rfl
    · exact h.ptrs j

lemma idrInit_holds : IdrHolds (idrInit : Idr b α) fun _ => none := by
  refine ⟨⟨LayerOk.null _, Nat.zero_le _, by simp [idrInit], ⟨nofun, rfl⟩⟩, fun j => ?_,
    fun j => ?_⟩
  · rw [Idr.used, idrInit, rootUsed, usedAt, bitAt_null, Bool.and_false]
    rfl
  · rw [idrInit, rootPtr, slotAt_null, ite_self]
    rfl

lemma preGetLoop_spec : ∀ {avail : ℕ} {free : IdFree b α}, FreeOk free →
    FreeOk (preGetLoop avail free).2
  | 0, _, h => h
  | avail + 1, free, h => by
    unfold preGetLoop
    split_ifs
    · exact preGetLoop_spec (h.move ⟨fun _ => rfl, rfl, fun _ _ => rfl⟩)
    · exact h

lemma IdrHolds.unmarked (h : IdrHolds idp ids) (hm : idp.marked i = false) :
    ids i = none := by
  have hu := h.used i
  rw [Idr.marked] at hm
  rw [Idr.used, rootUsed, hm, Bool.and_false] at hu
  simpa using hu.symm

lemma IdrHolds.remove (h : IdrHolds idp ids)
    (hin : (maskId id).toNat < 2 ^ (b * idp.layers) ∨ idp.marked (maskId id).toNat = false) :
    IdrHolds (idrRemove idp id) (update ids (maskId id).toNat none) := by
  obtain ⟨hok, hkeep, hput⟩ := idrRemove_spec idrLeaf_rule h.ok id
  cases hm : idp.marked (maskId id).toNat with
  | false =>
    rw [← h.unmarked hm, update_eq_self]
    exact h.same hok (hkeep hm)
  | true =>
    rw [hm] at hin
    exact h.put hok (hput hm (hin.resolve_right (by simp)))

lemma idrBits_limit (L : LongSize) : idrBits L * (maxLevel (idrBits L) - 1) = 30 := by
  cases L <;> rfl

lemma maxLevel_idrBits (L : LongSize) : 0 < maxLevel (idrBits L) - 1 := by
  cases L <;> decide

lemma IdrHolds.getNewAbove {idp : Idr (idrBits L) α} (h : IdrHolds idp ids)
    (ptr : Option α) {start : CInt} (hroom : RoomAbove ids start) :
    ∃ res idp', idrGetNewAbove idp ptr start = some (res, idp') ∧ match res with
        | .error e => e = -EAGAIN ∧ IdrHolds idp' ids
        | .ok id => id.toNat < 2 ^ 30 ∧ start.toNat ≤ id.toNat ∧ ids id.toNat = none
          ∧ (∀ j, start.toNat ≤ j → j < id.toNat → (ids j).isSome)
          ∧ IdrHolds idp' (update ids id.toNat (some ptr)) := by
  obtain ⟨f, hlo, hf, hnone⟩ := hroom
  obtain ⟨res, idp', he, hok, hres⟩ := idrGetNewAbove_spec (maxLevel_idrBits L) h.ok ptr start hlo
    (by rwa [idrBits_limit]) (by rw [h.used, hnone]; rfl)
  refine ⟨res, idp', he, ?_⟩
  cases res with
  | error e => exact ⟨hres.1, h.same hok hres.2⟩
  | ok id =>
    obtain ⟨hlt, hle, hunused, hpassed, hput⟩ := hres
    refine ⟨hlt, hle, ?_, fun j h1 h2 => by rw [← h.used]; exact hpassed j h1 h2, h.put hok hput⟩
    rw [h.used] at hunused
    simpa using hunused

lemma IdrHolds.replace (h : IdrHolds idp ids) (ptr : Option α) (id : CInt) :
    match idrReplace idp ptr id with
    | (.error _, idp') => IdrHolds idp' ids
    | (.ok _, idp') => IdrHolds idp' (update ids (maskId id).toNat (some ptr)) := by
  obtain ⟨hok, hres⟩ := idrReplace_spec h.ok ptr id
  generalize idrReplace idp ptr id = r at hok hres
  obtain ⟨res, idp'⟩ := r
  cases res with
  | error e =>
    obtain ⟨-, rfl⟩ := hres
    exact h
  | ok old => exact h.put hok hres.2.2

lemma IdrCall.exec_holds {idp idp' : Idr (idrBits L) α} {ids' : Ids α}
    (h : IdrHolds idp ids) (hroom : Roomy ids c) (hin : InTree idp c)
    (he : c.exec idp ids = some (idp', ids')) : IdrHolds idp' ids' := by
  cases c with
  | preGet avail =>
    simp only [IdrCall.exec, Option.some.injEq, Prod.mk.injEq] at he
    obtain ⟨rfl, rfl⟩ := he
    exact ⟨⟨h.ok.ok, h.ok.layers_le, h.ok.top, preGetLoop_spec h.ok.free⟩, h.used, h.ptrs⟩
  | getNewAbove ptr start =>
    obtain ⟨res, idp1, hg, hres⟩ := h.getNewAbove ptr hroom
    cases res with
    | error e =>
      simp only [IdrCall.exec, hg, Option.map_some, Option.some.injEq, Prod.mk.injEq] at he
      obtain ⟨rfl, rfl⟩ := he
      exact hres.2
    | ok id =>
      simp only [IdrCall.exec, hg, Option.map_some, Option.some.injEq, Prod.mk.injEq] at he
      obtain ⟨rfl, rfl⟩ := he
      exact hres.2.2.2.2
  | replace ptr id =>
    have hr := h.replace ptr id
    simp only [IdrCall.exec] at he
    generalize idrReplace idp ptr id = r at he hr
    obtain ⟨res, idp1⟩ := r
    cases res with
    | error e =>
      simp only [Option.some.injEq, Prod.mk.injEq] at he
      obtain ⟨rfl, rfl⟩ := he
      exact hr
    | ok old =>
      simp only [Option.some.injEq, Prod.mk.injEq] at he
      obtain ⟨rfl, rfl⟩ := he
      exact hr
  | remove id =>
    simp only [IdrCall.exec, Option.some.injEq, Prod.mk.injEq] at he
    obtain ⟨rfl, rfl⟩ := he
    exact h.remove hin

lemma IdrHolds.inTree (h : IdrHolds idp ids) (hl : Lawful ids c) :
    InTree idp c := by
  cases c with
  | preGet _ => trivial
  | getNewAbove _ _ => trivial
  | replace _ _ => trivial
  | remove id =>
    have hu := h.used (maskId id).toNat
    rw [show (ids (maskId id).toNat).isSome = true from hl, Idr.used, rootUsed, Bool.and_eq_true,
      decide_eq_true_eq] at hu
    exact .inl hu.1

lemma IdrReach.holds {ok : Idr (idrBits L) α → Ids α → IdrCall α → Prop}
    (hok : ∀ idp ids c, IdrHolds idp ids → ok idp ids c → Roomy ids c ∧ InTree idp c)
    {idp : Idr (idrBits L) α} (hr : IdrReach ok idp ids) : IdrHolds idp ids := by
  induction hr with
  | init => exact idrInit_holds
  | step _ hc he ih =>
    obtain ⟨hroom, hin⟩ := hok _ _ _ ih hc
    exact IdrCall.exec_holds ih hroom hin he

lemma IdrReach.call {ok : Idr b α → Ids α → IdrCall α → Prop} (hr : IdrReach ok idp ids)
    (hc : ok idp ids c) (he : (c.exec idp ids).isSome) :
    IdrReach ok ((c.exec idp ids).get he).1 ((c.exec idp ids).get he).2 :=
  .step hr hc (Option.some_get he).symm

/-- An idr after its first two calls. -/
lemma reach_getNewAbove (L : LongSize) (id : CInt) (hid : id.toNat < 2 ^ 30)
    (he : ((IdrCall.getNewAbove (some true) id).exec
      (idrPreGet 14 (idrInit : Idr (idrBits L) Bool)).2 fun _ => none).isSome) :
    IdrReach (fun idp ids c => Roomy ids c ∧ InTree idp c) (Option.get _ he).1 (Option.get _ he).2 :=
  (IdrReach.init.call (c := .preGet 14) ⟨trivial, trivial⟩ rfl).call
    ⟨⟨_, le_rfl, hid, rfl⟩, trivial⟩ he

/-- While ids of 30 bits are free for each call, the bitmaps, counts and layer numbers of the tree
and the length of its free list are exact, whatever is removed from within the tree. -/
theorem idr_layers_exact {L : LongSize} {idp : Idr (idrBits L) α}
    (hr : IdrReach (fun idp ids c => Roomy ids c ∧ InTree idp c) idp ids) :
    LayerOk IdrLeaf idp.layers idp.top ∧ (∀ j, idp.used j = (ids j).isSome)
      ∧ idp.free.cnt = idp.free.list.length := by
  have h := hr.holds fun _ _ _ _ hok => hok
  exact ⟨h.ok.ok, h.used, h.ok.free.cnt⟩

theorem idr_layers_exact_two_calls :
    ∃ (idp : Idr (idrBits .long64) Bool) (ids : Ids Bool),
      IdrReach (fun idp ids c => Roomy ids c ∧ InTree idp c) idp ids ∧ ids 7 = some (some true)
        ∧ LayerOk IdrLeaf idp.layers idp.top ∧ (∀ j, idp.used j = (ids j).isSome)
        ∧ idp.free.cnt = idp.free.list.length := by
  have h2 := reach_getNewAbove .long64 7#32 (by decide) (by decide +kernel)
  exact ⟨_, _, h2, by decide +kernel, idr_layers_exact h2⟩

/-- With one layer, removing id 32 frees id 0. -/
theorem idrRemove_past_top :
    ∃ (idp : Idr (idrBits .long32) Bool) (ids : Ids Bool),
      IdrReach (fun _ _ _ => True) idp ids ∧ ids 0 = some (some true) ∧ idp.used 0 = false := by
  have h0 : IdrReach (fun (_ : Idr (idrBits .long32) Bool) _ _ => True) idrInit fun _ => none :=
    .init
  have h1 := h0.call (c := .preGet 14) trivial rfl
  have h2 := h1.call (c := .getNewAbove (some true) 0#32) trivial (by decide +kernel)
  have h3 := h2.call (c := .remove 32#32) trivial rfl
  exact ⟨_, _, h3, by decide +kernel, by decide +kernel⟩

/-- While ids of 30 bits are free for each call, a new id is the least one free from the start on,
it is found with its pointer, and every other id is found as before. -/
theorem idrGetNewAbove_least {L : LongSize} {idp : Idr (idrBits L) α}
    (hr : IdrReach (fun _ ids c => Lawful ids c ∧ Roomy ids c) idp ids) (ptr : Option α)
    (start : CInt)
    (hroom : RoomAbove ids start) :
    ∃ res idp', idrGetNewAbove idp ptr start = some (res, idp') ∧ ∀ id, res = .ok id →
      (start.toNat ≤ id.toNat ∧ ids id.toNat = none
        ∧ ∀ j, start.toNat ≤ j → j < id.toNat → (ids j).isSome)
      ∧ idrFind idp' id = some (ptrSlot ptr)
      ∧ ∀ j, maskId j ≠ id → idrFind idp' j = idrFind idp j := by
  have h := hr.holds fun _ _ _ h hok => ⟨hok.2, h.inTree hok.1⟩
  obtain ⟨res, idp', he, hres⟩ := h.getNewAbove ptr hroom
  refine ⟨res, idp', he, ?_⟩
  rintro id rfl
  obtain ⟨hlt, hle, hnone, hpassed, hnew⟩ := hres
  refine ⟨⟨hle, hnone, hpassed⟩, ?_, fun j hj => ?_⟩
  · rw [idrFind_spec hnew.ok, hnew.ptrs, maskId_of_lt (by omega), update_self]
    rfl
  · have hne : (maskId j).toNat ≠ id.toNat := fun heq => hj (BitVec.eq_of_toNat_eq heq)
    rw [idrFind_spec hnew.ok, hnew.ptrs, update_of_ne hne, idrFind_spec h.ok, h.ptrs]

theorem idrGetNewAbove_least_seven :
    ∃ (idp : Idr (idrBits .long64) Bool) (ids : Ids Bool) (idp' : Idr (idrBits .long64) Bool),
      IdrReach (fun _ ids c => Lawful ids c ∧ Roomy ids c) idp ids ∧ ids 7 = some (some true)
        ∧ idrGetNewAbove idp (some false) 7#32 = some (.ok 8#32, idp')
        ∧ idrFind idp' 8#32 = some (.leaf false) ∧ idrFind idp' 7#32 = idrFind idp 7#32 := by
  have h0 : IdrReach (fun (_ : Idr (idrBits .long64) Bool) ids c => Lawful ids c ∧ Roomy ids c)
      idrInit fun _ => none := .init
  have h1 := h0.call (c := .preGet 14) ⟨trivial, trivial⟩ rfl
  have h2 := h1.call (c := .getNewAbove (some true) 7#32)
    ⟨show (7#32).toNat < 2 ^ 31 by decide, 7, by decide, by decide, rfl⟩ (by decide +kernel)
  obtain ⟨res, idp', he, hres⟩ := idrGetNewAbove_least h2 (some false) 7#32
    ⟨8, by decide, by decide, by decide +kernel⟩
  have hid := congrArg (Option.map fun r => r.1.toOption) he
  have hres8 := (Eq.symm hid).trans (show _ = some (some 8#32) by decide +kernel)
  cases res with
  | error e => cases Option.some.inj hres8
  | ok id =>
    obtain rfl : id = 8#32 := Option.some.inj (Option.some.inj hres8)
    obtain ⟨-, hfind, hother⟩ := hres _ rfl
    exact ⟨_, _, idp', h2, by decide +kernel, he, hfind, hother 7#32 (by decide)⟩

/-- A start at the limit of the tree: the id is stored in the slot of id 0, where it is not found.
-/
theorem idrGetNewAbove_past_limit :
    ∃ (idp : Idr (idrBits .long32) Bool) (ids : Ids Bool),
      IdrReach (fun _ ids c => Lawful ids c) idp ids
        ∧ ((idrGetNewAbove idp (some true) 0x40000000#32).map fun (res, idp') =>
            (res.toOption, (idrFind idp' 0x40000000#32).map isNull, (idrFind idp' 0#32).map isNull,
              (idrFind idp 0#32).map isNull))
          = some (some 0x40000000#32, some true, some false, some true) := by
  have h0 : IdrReach (fun (_ : Idr (idrBits .long32) Bool) ids c => Lawful ids c)
      idrInit fun _ => none := .init
  have h1 := h0.call (c := .preGet 14) trivial rfl
  exact ⟨_, _, h1, by decide +kernel⟩

end LinuxKernel.Lib
