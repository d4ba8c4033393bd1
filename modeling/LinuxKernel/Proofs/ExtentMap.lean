import LinuxKernel.ExtentMap

/-!
# The extent map tree

A descent that finds no map ends between the maps that end by the offset and those that start after
it, so the walks to both neighbours stop at once. Two maps that merge give each of their file
offsets the place it had.
-/

namespace LinuxKernel.Btrfs

open List

variable {before after l₁ l₂ : List ExtentMap} {em e m p : ExtentMap} {start len offset : ℕ}
  {t : Tree}

inductive Place where
  | hole
  | inline
  | delalloc
  | compressed (bdev blockStart offset : ℕ)
  | disk (bdev address : ℕ)
deriving DecidableEq

def ExtentMap.covers (em : ExtentMap) (x : ℕ) : Prop := em.start ≤ x ∧ x < em.start + em.len

def ExtentMap.place (em : ExtentMap) (x : ℕ) : Place :=
  if em.blockStart = EXTENT_MAP_HOLE then .hole
  else if em.blockStart = EXTENT_MAP_INLINE then .inline
  else if em.blockStart = EXTENT_MAP_DELALLOC then .delalloc
  else if em.flags.compressed then .compressed em.bdev em.blockStart (x - em.start)
  else .disk em.bdev (em.blockStart + (x - em.start))

/-- A map with a range that is not empty and does not wrap, and the same length on disk if it is
uncompressed data. -/
structure EmOk (em : ExtentMap) : Prop where
  len_pos : 0 < em.len
  no_wrap : em.start + em.len < 2 ^ 64
  block_lt : em.blockStart < 2 ^ 64
  block_len_lt : em.blockLen < 2 ^ 64
  block_len : em.flags.compressed = false → em.blockStart < EXTENT_MAP_HOLE → em.blockLen = em.len

def Before (a b : ExtentMap) : Prop := a.start + a.len ≤ b.start

structure MapsOk (l : List ExtentMap) : Prop where
  ok : ∀ em ∈ l, EmOk em
  sorted : l.Pairwise Before

/-- File offset `x` has place `v` in one of the maps. -/
def Assigned (l : List ExtentMap) (x : ℕ) (v : Place) : Prop := ∃ em ∈ l,
    em.covers x ∧ em.place x = v

lemma rangeEnd_of_lt (h : start + len < 2 ^ 64) : rangeEnd start len = start + len := by
  rw [rangeEnd, addMod_of_lt h, if_neg (by omega)]

lemma rangeEnd_of_ge (h1 : start < 2 ^ 64) (h2 : len < 2 ^ 64) (h : 2 ^ 64 ≤ start + len) :
    rangeEnd start len = 2 ^ 64 - 1 := by
  have hmod : addMod 64 start len = start + len - 2 ^ 64 := by
    rw [addMod, Nat.mod_eq_sub_mod h, Nat.mod_eq_of_lt (by omega)]
  rw [rangeEnd, hmod, if_pos (by omega)]

lemma EmOk.end_eq (h : EmOk em) : extentMapEnd em = em.start + em.len := rangeEnd_of_lt h.no_wrap

structure Merged (p e m : ExtentMap) : Prop where
  start : m.start = p.start
  len : m.len = p.len + e.len
  block : m.blockStart = p.blockStart
  flags : m.flags = p.flags
  bdev : m.bdev = p.bdev
  block_len_lt : m.blockLen < 2 ^ 64
  block_len : p.blockLen = p.len → e.blockLen = e.len → m.blockLen = p.len + e.len

structure Mergable (p e : ExtentMap) : Prop where
  adjacent : p.start + p.len = e.start
  uncompressed : p.flags.compressed = false
  flags : p.flags = e.flags
  bdev : p.bdev = e.bdev
  block : (EXTENT_MAP_HOLE ≤ p.blockStart ∧ e.blockStart = p.blockStart)
    ∨ (p.blockStart < EXTENT_MAP_HOLE ∧ e.blockStart < EXTENT_MAP_HOLE
      ∧ e.blockStart = p.blockStart + p.len)

lemma mergableMaps_spec (hp : EmOk p) (h : mergableMaps p e = true) :
    Mergable p e := by
  unfold mergableMaps at h
  split_ifs at h with h1 h2
  obtain ⟨hadj, hflags, hbdev, hblock⟩ := of_decide_eq_true h
  rw [hp.end_eq] at hadj
  have hcomp : p.flags.compressed = false := by simpa using h2
  refine ⟨hadj, hcomp, hflags, hbdev, ?_⟩
  have h3 := hp.block_lt
  have h4 := hp.block_len_lt
  have h5 := hp.block_len hcomp
  rcases hblock with ⟨ha, hb⟩ | ⟨ha, hb⟩ | ⟨ha, hb⟩ | ⟨hlt, heq⟩
  · exact .inl ⟨hb.ge, ha.trans hb.symm⟩
  · refine .inl ⟨?_, ha.trans hb.symm⟩
    rw [hb]
    decide
  · refine .inl ⟨?_, ha.trans hb.symm⟩
    rw [hb]
    decide
  · rw [extentMapBlockEnd] at heq
    unfold EXTENT_MAP_LAST_BYTE at hlt
    unfold EXTENT_MAP_HOLE at h5 ⊢
    rcases lt_or_ge (p.blockStart + p.blockLen) (2 ^ 64) with hsum | hsum
    · rw [rangeEnd_of_lt hsum] at heq
      have hreal : p.blockStart < 2 ^ 64 - 3 := by omega
      rw [h5 hreal] at heq
      exact .inr ⟨hreal, by omega, heq⟩
    · rw [rangeEnd_of_ge h3 h4 hsum] at heq
      omega

lemma Merged.emOk (h : Merged p e m) (hm : Mergable p e) (hp : EmOk p)
    (he : EmOk e) : EmOk m := by
  have h1 := hp.len_pos
  have h2 := he.no_wrap
  have h3 := hm.adjacent
  refine ⟨by rw [h.len]; omega, by rw [h.start, h.len]; omega, by rw [h.block]; exact hp.block_lt,
    h.block_len_lt, fun hc hreal => ?_⟩
  rw [h.block] at hreal
  rw [h.len]
  refine h.block_len (hp.block_len hm.uncompressed hreal) (he.block_len ?_ ?_)
  · rw [← hm.flags]
    exact hm.uncompressed
  · rcases hm.block with ⟨hcode, -⟩ | ⟨-, hreal', -⟩
    · omega
    · exact hreal'

lemma Merged.covers_iff (h : Merged p e m) (hm : Mergable p e) (x : ℕ) :
    m.covers x ↔ p.covers x ∨ e.covers x := by
  have h3 := hm.adjacent
  unfold ExtentMap.covers
  rw [h.start, h.len]
  omega

lemma Merged.place_left (h : Merged p e m) (x : ℕ) :
    m.place x = p.place x := by
  unfold ExtentMap.place
  rw [h.block, h.flags, h.bdev, h.start]

lemma Merged.place_right (h : Merged p e m) (hm : Mergable p e) (hok : EmOk p)
    {x : ℕ} (hx : e.covers x) : m.place x = e.place x := by
  have h1 := hm.adjacent
  rw [h.place_left]
  unfold ExtentMap.place
  rw [hm.bdev, hm.flags]
  have hunc : e.flags.compressed = false := by
    rw [← hm.flags]
    exact hm.uncompressed
  rcases hm.block with ⟨hcode, heq⟩ | ⟨hp, he, heq⟩
  · have hlt := hok.block_lt
    have hcases : p.blockStart = EXTENT_MAP_HOLE ∨ p.blockStart = EXTENT_MAP_INLINE
        ∨ p.blockStart = EXTENT_MAP_DELALLOC := by
      unfold EXTENT_MAP_HOLE EXTENT_MAP_INLINE EXTENT_MAP_DELALLOC at *
      omega
    rw [heq]
    rcases hcases with hc | hc | hc
    · rw [if_pos hc, if_pos hc]
    · rw [hc, if_neg (by decide), if_pos rfl, if_neg (by decide), if_pos rfl]
    · rw [hc, if_neg (by decide), if_neg (by decide), if_pos rfl, if_neg (by decide),
        if_neg (by decide), if_pos rfl]
  · have hne : ∀ {b : ℕ}, b < EXTENT_MAP_HOLE →
        b ≠ EXTENT_MAP_HOLE ∧ b ≠ EXTENT_MAP_INLINE ∧ b ≠ EXTENT_MAP_DELALLOC := by
      intro b hb
      unfold EXTENT_MAP_HOLE EXTENT_MAP_INLINE EXTENT_MAP_DELALLOC at *
      omega
    obtain ⟨p1, p2, p3⟩ := hne hp
    obtain ⟨e1, e2, e3⟩ := hne he
    rw [if_neg p1, if_neg p2, if_neg p3, if_neg e1, if_neg e2, if_neg e3, hunc, if_neg (by simp),
      if_neg (by simp)]
    have h2 := hx.1
    congr 1
    omega

lemma Merged.mapsOk (h : Merged p e m) (hm : Mergable p e) (hl : MapsOk (l₁ ++ p :: e :: l₂)) :
    MapsOk (l₁ ++ m :: l₂) := by
  have hp := hl.ok p (by simp)
  have he := hl.ok e (by simp)
  have hadj := hm.adjacent
  obtain ⟨h1, h2, h3⟩ := pairwise_append.1 hl.sorted
  obtain ⟨hpe, h2⟩ := pairwise_cons.1 h2
  obtain ⟨hel, h2⟩ := pairwise_cons.1 h2
  refine ⟨fun a ha => ?_, pairwise_append.2 ⟨h1, pairwise_cons.2 ⟨fun a ha => ?_, h2⟩,
    fun a ha c hc => ?_⟩⟩
  · rcases mem_append.1 ha with ha | ha
    · exact hl.ok a (by simp [ha])
    · rcases mem_cons.1 ha with rfl | ha
      · exact h.emOk hm hp he
      · exact hl.ok a (by simp [ha])
  · have : e.start + e.len ≤ a.start := hel a ha
    show m.start + m.len ≤ a.start
    rw [h.start, h.len]
    omega
  · rcases mem_cons.1 hc with rfl | hc
    · have : a.start + a.len ≤ p.start := h3 a ha p mem_cons_self
      show a.start + a.len ≤ c.start
      rw [h.start]
      exact this
    · exact h3 a ha c (by simp [hc])

lemma Merged.assigned (h : Merged p e m) (hm : Mergable p e) (hp : EmOk p) (x : ℕ) (v : Place) :
    Assigned (l₁ ++ m :: l₂) x v ↔ Assigned (l₁ ++ p :: e :: l₂) x v := by
  unfold Assigned
  simp only [mem_append, mem_cons]
  constructor
  · rintro ⟨a, ha | rfl | ha, hx, hv⟩
    · exact ⟨a, .inl ha, hx, hv⟩
    · rcases (h.covers_iff hm x).1 hx with hx | hx
      · exact ⟨p, .inr (.inl rfl), hx, (h.place_left x).symm.trans hv⟩
      · exact ⟨e, .inr (.inr (.inl rfl)), hx, (h.place_right hm hp hx).symm.trans hv⟩
    · exact ⟨a, .inr (.inr (.inr ha)), hx, hv⟩
  · rintro ⟨a, ha | rfl | rfl | ha, hx, hv⟩
    · exact ⟨a, .inl ha, hx, hv⟩
    · exact ⟨m, .inr (.inl rfl), (h.covers_iff hm x).2 (.inl hx), (h.place_left x).trans hv⟩
    · exact ⟨m, .inr (.inl rfl), (h.covers_iff hm x).2 (.inr hx),
        (h.place_right hm hp hx).trans hv⟩
    · exact ⟨a, .inr (.inr ha), hx, hv⟩

def SameMaps (l l' : List ExtentMap) : Prop :=
  MapsOk l' ∧ ∀ x v, Assigned l' x v ↔ Assigned l x v

lemma SameMaps.refl {l : List ExtentMap} (h : MapsOk l) : SameMaps l l := ⟨h, fun _ _ => Iff.rfl⟩

lemma SameMaps.trans {l l' l'' : List ExtentMap} (h1 : SameMaps l l') (h2 : SameMaps l' l'') :
    SameMaps l l'' := ⟨h2.1, fun x v => (h2.2 x v).trans (h1.2 x v)⟩

lemma Merged.same (h : Merged p e m) (hm : Mergable p e) (hl : MapsOk (l₁ ++ p :: e :: l₂)) :
    SameMaps (l₁ ++ p :: e :: l₂) (l₁ ++ m :: l₂) :=
  ⟨h.mapsOk hm hl, h.assigned hm (hl.ok p (by simp))⟩

lemma mergePrev_same (hl : MapsOk (before.reverse ++ em :: after)) :
    SameMaps (before.reverse ++ em :: after)
      ((mergePrev before em).1.reverse ++ (mergePrev before em).2 :: after) := by
  unfold mergePrev
  split_ifs with h0
  · cases before with
    | nil => exact SameMaps.refl hl
    | cons p before =>
      dsimp only
      split_ifs with hm
      · rw [reverse_cons, append_assoc, singleton_append] at hl ⊢
        have hp := hl.ok p (by simp)
        have he := hl.ok em (by simp)
        have hmerge := mergableMaps_spec hp hm
        have h1 := hmerge.adjacent
        have h2 := he.no_wrap
        refine Merged.same ⟨rfl, ?_, rfl, hmerge.flags.symm, hmerge.bdev.symm,
          Nat.mod_lt _ (by decide), fun hpl hel => ?_⟩ hmerge hl
        · dsimp only
          rw [addMod_of_lt (by omega), add_comm]
        · dsimp only
          rw [hpl, hel, addMod_of_lt (by omega), add_comm]
      · exact SameMaps.refl hl
  · exact SameMaps.refl hl

lemma mergeNext_same {pre : List ExtentMap} (hl : MapsOk (pre ++ em :: after)) :
    SameMaps (pre ++ em :: after) (pre ++ (mergeNext em after).1 :: (mergeNext em after).2) := by
  unfold mergeNext
  cases after with
  | nil => exact SameMaps.refl hl
  | cons e after =>
    dsimp only
    split_ifs with hm
    · have hp := hl.ok em (by simp)
      have he := hl.ok e (by simp)
      have hmerge := mergableMaps_spec hp hm
      have h1 := hmerge.adjacent
      have h2 := he.no_wrap
      refine Merged.same ⟨rfl, ?_, rfl, rfl, rfl, Nat.mod_lt _ (by decide),
        fun hpl _ => ?_⟩ hmerge hl
      · dsimp only
        rw [addMod_of_lt (by omega)]
      · dsimp only
        rw [hpl, addMod_of_lt (by omega)]
    · exact SameMaps.refl hl

lemma mergeBoth_same (bal : Balance) (hl : MapsOk (before.reverse ++ em :: after)) :
    SameMaps (before.reverse ++ em :: after) (mergeBoth bal before em after).toList := by
  rw [mergeBoth, bal.toList_tree]
  have h1 := mergePrev_same hl
  exact h1.trans (mergeNext_same h1.1)

def DescentOk (offset : ℕ) (l : List ExtentMap) : Descent → Prop
  | .hit before em after => before.reverse ++ em :: after = l ∧ em.start ≤ offset
      ∧ offset < em.start + em.len
  | .miss before after _ => before.reverse ++ after = l
      ∧ (∀ m ∈ before, m.start + m.len ≤ offset) ∧ ∀ m ∈ after, offset < m.start

lemma descend_spec : ∀ {t : Tree} {before after : List ExtentMap} {d : Bool},
    MapsOk (before.reverse ++ (t.toList ++ after)) → (∀ m ∈ before, m.start + m.len ≤ offset) →
    (∀ m ∈ after, offset < m.start) →
    DescentOk offset (before.reverse ++ (t.toList ++ after)) (descend offset t before after d)
  | .nil, before, after, _, _, hb, ha => ⟨rfl, hb, ha⟩
  | .node l em r, before, after, _, hl, hb, ha => by
    have hem := hl.ok em (by simp [Tree.toList])
    rw [descend, hem.end_eq]
    have hsorted := hl.sorted
    simp only [Tree.toList, append_assoc, cons_append] at hl hsorted ⊢
    split_ifs with hlt hge
    · refine descend_spec hl hb fun m hm => ?_
      rcases mem_cons.1 hm with rfl | hm
      · exact hlt
      · have : em.start + em.len ≤ m.start := (pairwise_cons.1
          (pairwise_append.1 (pairwise_append.1 hsorted).2.1).2.1).1 m hm
        omega
    · have heq : before.reverse ++ (l.toList ++ em :: (r.toList ++ after))
          = (em :: (l.toList.reverse ++ before)).reverse ++ (r.toList ++ after) := by simp
      rw [heq] at hl ⊢
      refine descend_spec hl (fun m hm => ?_) ha
      rcases mem_cons.1 hm with rfl | hm
      · exact hge
      rcases mem_append.1 hm with hm | hm
      · have : m.start + m.len ≤ em.start :=
          (pairwise_append.1 (pairwise_append.1 hsorted).2.1).2.2 m
          (mem_reverse.1 hm) em mem_cons_self
        omega
      · exact hb m hm
    · exact ⟨by simp, by omega, by omega⟩

lemma walkNext_stop (hok : ∀ m ∈ after, EmOk m) (ha : ∀ m ∈ after, offset < m.start) :
    walkNext offset before after = (before, after) := by
  cases after with
  | nil => rfl
  | cons em after =>
    have h1 := ha em mem_cons_self
    rw [walkNext, (hok em mem_cons_self).end_eq, if_neg (by omega)]

lemma walkPrev_stop (hb : ∀ m ∈ before, m.start + m.len ≤ offset) :
    walkPrev offset before after = (before, after) := by
  cases before with
  | nil => rfl
  | cons em before =>
    have h1 := hb em mem_cons_self
    rw [walkPrev, if_neg (by omega)]

lemma prevRet_eq (hok : ∀ m ∈ before.reverse ++ after, EmOk m)
    (hb : ∀ m ∈ before, m.start + m.len ≤ offset) (ha : ∀ m ∈ after, offset < m.start) (d : Bool) :
    prevRet offset before after d = (before, after) := by
  have hstop : ∀ {bs}, walkNext offset bs after = (bs, after) :=
    walkNext_stop (fun m hm => hok m (by simp [hm])) ha
  unfold prevRet
  split
  · rw [walkNext, (hok _ (by simp)).end_eq, if_pos (hb _ mem_cons_self)]
    exact hstop
  · exact hstop

lemma nextRet_eq (hb : ∀ m ∈ before, m.start + m.len ≤ offset)
    (ha : ∀ m ∈ after, offset < m.start)
    (d : Bool) : nextRet offset before after d = (before, after) := by
  unfold nextRet
  split
  · rw [walkPrev, if_pos (ha _ mem_cons_self)]
    exact walkPrev_stop hb
  · exact walkPrev_stop hb

def LookupOk (l : List ExtentMap) (start fin : ℕ) :
    Option (List ExtentMap × ExtentMap × List ExtentMap) → Prop
  | some (before, em, after) => before.reverse ++ em :: after = l ∧ meets em start fin = true
      ∧ ∀ m ∈ before, meets m start fin = false
  | none => ∀ m ∈ l, meets m start fin = false

lemma meets_of_before {fin : ℕ} (hok : EmOk m)
    (h : m.start + m.len ≤ start) : meets m start fin = false := by
  rw [meets, hok.end_eq, decide_eq_false (not_lt.2 h), Bool.and_false]

lemma not_meets_from {fin : ℕ} (hok : EmOk em)
    (hm : meets em start fin = false)
    (h : start < em.start + em.len) (hafter : ∀ m ∈ after, em.start + em.len ≤ m.start)
    (hb : ∀ m ∈ before, meets m start fin = false) :
    ∀ m ∈ before.reverse ++ em :: after, meets m start fin = false := by
  have hfin : fin ≤ em.start := by
    rw [meets, hok.end_eq, decide_eq_true h, Bool.and_true, decide_eq_false_iff_not] at hm
    exact not_lt.1 hm
  intro m hmem
  rcases mem_append.1 hmem with hmem | hmem
  · exact hb m (mem_reverse.1 hmem)
  · rcases mem_cons.1 hmem with rfl | hmem
    · exact hm
    · have := hafter m hmem
      rw [meets, decide_eq_false (by omega), Bool.false_and]

lemma lookupExtentMapping_spec (hl : MapsOk t.toList) (start len : ℕ) :
    LookupOk t.toList start (rangeEnd start len) (lookupExtentMapping t start len) := by
  have hd : DescentOk start ([].reverse ++ (t.toList ++ [])) (descend start t [] [] false) :=
    descend_spec (by simpa using hl) (by simp) (by simp)
  rw [append_nil, reverse_nil, nil_append] at hd
  unfold lookupExtentMapping
  generalize rangeEnd start len = fin
  generalize descend start t [] [] false = r at hd
  cases r with
  | hit before em after =>
    obtain ⟨heq, h1, h2⟩ := hd
    rw [← heq] at hl ⊢
    have hbefore : ∀ m ∈ before, m.start + m.len ≤ em.start := fun m hm =>
      (pairwise_append.1 hl.sorted).2.2 m (mem_reverse.2 hm) em mem_cons_self
    have hb : ∀ m ∈ before, meets m start fin = false := fun m hm =>
      meets_of_before (hl.ok m (by simp [hm])) ((hbefore m hm).trans h1)
    dsimp only
    split_ifs with hm
    · exact ⟨rfl, hm, hb⟩
    · have hafter : ∀ m ∈ after, em.start + em.len ≤ m.start :=
        (pairwise_cons.1 (pairwise_append.1 hl.sorted).2.1).1
      exact not_meets_from (hl.ok em (by simp)) (by simpa using hm) h2 hafter hb
  | miss before after d =>
    obtain ⟨heq, hb, ha⟩ := hd
    rw [← heq] at hl ⊢
    have hb' : ∀ m ∈ before, meets m start fin = false := fun m hm =>
      meets_of_before (hl.ok m (by simp [hm])) (hb m hm)
    have hnext : lookupExtentMapping.lookupNext start fin before after d = none := by
      rw [lookupExtentMapping.lookupNext, nextRet_eq hb ha]
      cases before with
      | nil => rfl
      | cons em before =>
        dsimp only
        rw [hb' em mem_cons_self]
        rfl
    dsimp only
    rw [prevRet_eq hl.ok hb ha, hnext]
    cases after with
    | nil =>
      intro m hm
      rw [append_nil] at hm
      exact hb' m (mem_reverse.1 hm)
    | cons em after =>
      dsimp only
      split_ifs with hm
      · exact ⟨rfl, hm, hb'⟩
      have hem := hl.ok em (by simp)
      have h1 := ha em mem_cons_self
      have hafter : ∀ m ∈ after, em.start + em.len ≤ m.start :=
        (pairwise_cons.1 (pairwise_append.1 hl.sorted).2.1).1
      exact not_meets_from hem (by simpa using hm) (by omega) hafter hb'

def Overlaps (em : ExtentMap) (start len : ℕ) : Prop := ∃ x,
    em.covers x ∧ start ≤ x ∧ x < start + len

lemma meets_iff (hok : EmOk em) (hs : start < 2 ^ 64)
    (h0 : 0 < len) (hl : len < 2 ^ 64) :
    meets em start (rangeEnd start len) = true ↔ Overlaps em start len := by
  have h1 := hok.len_pos
  have h2 := hok.no_wrap
  have hmeets : meets em start (rangeEnd start len) = true
      ↔ em.start < rangeEnd start len ∧ start < em.start + em.len := by
    rw [meets, hok.end_eq, Bool.and_eq_true, decide_eq_true_eq, decide_eq_true_eq]
  have hend : em.start < rangeEnd start len ↔ em.start < start + len := by
    rcases lt_or_ge (start + len) (2 ^ 64) with hlt | hge
    · rw [rangeEnd_of_lt hlt]
    · rw [rangeEnd_of_ge hs hl hge]
      omega
  rw [hmeets, hend]
  constructor
  · rintro ⟨h3, h4⟩
    exact ⟨max em.start start, ⟨by omega, by omega⟩, by omega, by omega⟩
  · rintro ⟨x, ⟨h3, h4⟩, h5, h6⟩
    omega

inductive Reach : Tree → Prop
  | init : Reach .nil
  | add {t : Tree} (bal : Balance) {em : ExtentMap} : EmOk em → Reach t →
      Reach (addExtentMapping bal t em).2
  | unpin {t : Tree} (bal : Balance) (start len : ℕ) : Reach t →
      Reach (unpinExtentCache bal t start len)
  | remove {t : Tree} (bal : Balance) {before after : List ExtentMap} {em : ExtentMap} : Reach t →
      t.toList = before ++ em :: after → Reach (removeExtentMapping bal before after)

lemma unpinExtentCache_same (bal : Balance) (hl : MapsOk t.toList) (start len : ℕ) :
    SameMaps t.toList (unpinExtentCache bal t start len).toList := by
  have h := lookupExtentMapping_spec hl start len
  unfold unpinExtentCache
  cases hlook : lookupExtentMapping t start len with
  | none => exact SameMaps.refl hl
  | some r =>
    obtain ⟨before, em, after⟩ := r
    rw [hlook] at h
    obtain ⟨heq, -, -⟩ := h
    dsimp only
    rw [← heq] at hl ⊢
    have hem := hl.ok em (by simp)
    have hclear : SameMaps (before.reverse ++ em :: after)
        (before.reverse ++ { em with flags := { em.flags with pinned := false } } :: after) := by
      refine ⟨⟨fun m hm => ?_, ?_⟩, fun x v => ?_⟩
      · rcases mem_append.1 hm with hm | hm
        · exact hl.ok m (by simp [mem_reverse.1 hm])
        · rcases mem_cons.1 hm with rfl | hm
          · exact ⟨hem.len_pos, hem.no_wrap, hem.block_lt, hem.block_len_lt, hem.block_len⟩
          · exact hl.ok m (by simp [hm])
      · obtain ⟨h1, h2, h3⟩ := pairwise_append.1 hl.sorted
        obtain ⟨h4, h5⟩ := pairwise_cons.1 h2
        refine pairwise_append.2 ⟨h1, pairwise_cons.2 ⟨h4, h5⟩, fun a ha c hc => ?_⟩
        rcases mem_cons.1 hc with rfl | hc
        · exact h3 a ha em mem_cons_self
        · exact h3 a ha c (by simp [hc])
      · unfold Assigned
        simp only [mem_append, mem_cons]
        constructor
        · rintro ⟨a, ha | rfl | ha, hx, hv⟩
          · exact ⟨a, .inl ha, hx, hv⟩
          · exact ⟨em, .inr (.inl rfl), hx, hv⟩
          · exact ⟨a, .inr (.inr ha), hx, hv⟩
        · rintro ⟨a, ha | rfl | ha, hx, hv⟩
          · exact ⟨a, .inl ha, hx, hv⟩
          · exact ⟨_, .inr (.inl rfl), hx, hv⟩
          · exact ⟨a, .inr (.inr ha), hx, hv⟩
    exact hclear.trans (mergeBoth_same bal hclear.1)

lemma addExtentMapping_spec (bal : Balance) (hl : MapsOk t.toList)
    (hem : EmOk em) :
    (addExtentMapping bal t em = (-EEXIST, t) ∧ ∃ m ∈ t.toList, Overlaps m em.start em.len)
      ∨ ((addExtentMapping bal t em).1 = 0 ∧ (∀ m ∈ t.toList, ¬ Overlaps m em.start em.len)
        ∧ MapsOk (addExtentMapping bal t em).2.toList
        ∧ ∀ x v, Assigned (addExtentMapping bal t em).2.toList x v
          ↔ Assigned t.toList x v ∨ (em.covers x ∧ em.place x = v)) := by
  have hpos := hem.len_pos
  have hwrap := hem.no_wrap
  have h := lookupExtentMapping_spec hl em.start em.len
  have hmeets : ∀ m ∈ t.toList, (meets m em.start (rangeEnd em.start em.len) = true
      ↔ Overlaps m em.start em.len) := fun m hm => meets_iff (hl.ok m hm) (by omega) hpos (by omega)
  unfold addExtentMapping
  cases hlook : lookupExtentMapping t em.start em.len with
  | some r =>
    obtain ⟨before, m, after⟩ := r
    rw [hlook] at h
    obtain ⟨heq, hm, -⟩ := h
    have hmem : m ∈ t.toList := by
      rw [← heq]
      simp
    exact .inl ⟨rfl, m, hmem, (hmeets m hmem).1 hm⟩
  | none =>
    rw [hlook] at h
    have hno : ∀ m ∈ t.toList, ¬ Overlaps m em.start em.len := fun m hm hover => by
      rw [← hmeets m hm, h m hm] at hover
      cases hover
    have hd : DescentOk em.start ([].reverse ++ (t.toList ++ []))
        (descend em.start t [] [] false) :=
      descend_spec (by simpa using hl) (by simp) (by simp)
    rw [append_nil, reverse_nil, nil_append] at hd
    dsimp only
    generalize descend em.start t [] [] false = r at hd
    cases r with
    | hit before m after =>
      obtain ⟨heq, h1, h2⟩ := hd
      refine (hno m (by rw [← heq]; simp) ⟨em.start, ⟨h1, h2⟩, le_rfl, by omega⟩).elim
    | miss before after d =>
      obtain ⟨heq, hb, ha⟩ := hd
      have hafter : ∀ m ∈ after, em.start + em.len ≤ m.start := fun m hm => by
        have h1 := ha m hm
        have hmem : m ∈ t.toList := by
          rw [← heq]
          simp [hm]
        by_contra hlt
        exact hno m hmem ⟨m.start, ⟨le_rfl, by have := (hl.ok m hmem).len_pos; omega⟩,
          by omega, by omega⟩
      rw [← heq] at hl ⊢
      obtain ⟨h1, h2, h3⟩ := pairwise_append.1 hl.sorted
      have hins : MapsOk (before.reverse ++ em :: after) := by
        refine ⟨fun m hm => ?_, pairwise_append.2 ⟨h1, pairwise_cons.2 ⟨hafter, h2⟩,
          fun a ha' c hc => ?_⟩⟩
        · rcases mem_append.1 hm with hm | hm
          · exact hl.ok m (mem_append_left _ hm)
          · rcases mem_cons.1 hm with rfl | hm
            · exact hem
            · exact hl.ok m (mem_append_right _ hm)
        · rcases mem_cons.1 hc with rfl | hc
          · exact hb a (mem_reverse.1 ha')
          · exact h3 a ha' c hc
      obtain ⟨hok, hsame⟩ := mergeBoth_same bal hins
      refine .inr ⟨rfl, by rw [heq]; exact hno, hok, fun x v => ?_⟩
      dsimp only
      rw [hsame]
      unfold Assigned
      simp only [mem_append, mem_cons]
      constructor
      · rintro ⟨a, ha' | rfl | ha', hx, hv⟩
        · exact .inl ⟨a, .inl ha', hx, hv⟩
        · exact .inr ⟨hx, hv⟩
        · exact .inl ⟨a, .inr ha', hx, hv⟩
      · rintro (⟨a, ha' | ha', hx, hv⟩ | ⟨hx, hv⟩)
        · exact ⟨a, .inl ha', hx, hv⟩
        · exact ⟨a, .inr (.inr ha'), hx, hv⟩
        · exact ⟨em, .inr (.inl rfl), hx, hv⟩

lemma Reach.mapsOk (hr : Reach t) : MapsOk t.toList := by
  induction hr with
  | init => exact ⟨by simp [Tree.toList], List.Pairwise.nil⟩
  | add bal hem _ ih =>
    rcases addExtentMapping_spec bal ih hem with ⟨he, -⟩ | ⟨-, -, hok, -⟩
    · rw [he]
      exact ih
    · exact hok
  | unpin bal start len _ ih => exact (unpinExtentCache_same bal ih start len).1
  | remove bal _ heq ih =>
    rw [removeExtentMapping, bal.toList_tree]
    rw [heq] at ih
    refine ⟨fun m hm => ih.ok m ?_, ih.sorted.sublist ?_⟩
    · rcases mem_append.1 hm with hm | hm <;> simp [hm]
    · exact (Sublist.refl _).append (sublist_cons_self _ _)

def rightSpine : List ExtentMap → Tree
  | [] => .nil
  | em :: l => .node .nil em (rightSpine l)

def spineBalance : Balance := ⟨rightSpine, fun l => by
  induction l with
  | nil => rfl
  | cons em l ih => rw [rightSpine, Tree.toList, ih]; rfl⟩

/-- A map of 4096 bytes at disk address 8192. -/
def sampleMap : ExtentMap := ⟨0, 4096, 8192, 4096, ⟨false, false, 0⟩, 0⟩

lemma sampleMap_ok : EmOk sampleMap :=
  ⟨by decide, by decide, by decide, by decide, fun _ _ => rfl⟩

end LinuxKernel.Btrfs
