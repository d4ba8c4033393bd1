import LinuxKernel.E820

/-!
# The sanitised memory map

After some change points, the overlapping entries are those whose start has been passed and whose
end has not, and the new map is right below the next change point. At one address the starts come
first, so the type does not come back to that of the entry that ended there.
-/

namespace LinuxKernel.E820

open List

def E820Entry.stop (e : E820Entry) : ℕ := e.addr + e.size

def E820Entry.Covers (e : E820Entry) (a : ℕ) : Prop := e.addr ≤ a ∧ a < e.stop

/-- `d` ends before `e` starts, and they do not touch when they have one type. -/
def Apart (d e : E820Entry) : Prop := d.stop ≤ e.addr ∧ (d.stop = e.addr → d.type ≠ e.type)

/-- `new` is sorted, without overlaps, empty entries or touching entries of one type, and gives each
address the greatest type of the entries of `old` that contain it. -/
structure Sanitized (old new : List E820Entry) : Prop where
  size_ne : ∀ e ∈ new, e.size ≠ 0
  apart : new.Pairwise Apart
  covered : ∀ a, (∃ o ∈ old, o.Covers a) ↔ ∃ e ∈ new, e.Covers a
  type_eq : ∀ a, ∀ e ∈ new, e.Covers a →
    (∃ o ∈ old, o.Covers a ∧ o.type = e.type) ∧ ∀ o ∈ old, o.Covers a → o.type ≤ e.type

structure Reasonable (biosmap : List E820Entry) : Prop where
  stop_lt : ∀ e ∈ biosmap, e.stop < 2 ^ 64
  type_pos : ∀ e ∈ biosmap, 1 ≤ e.type

variable {biosmap es es' m m' : List E820Entry} {c b : ChangeMember} {pre rest : List ChangeMember}
  {d e e' : E820Entry} {a i : ℕ} {l : List ℕ}

lemma Apart.not_covers (h : Apart d e) (ha : e.Covers a) : ¬ d.Covers a := by
  intro hd
  have h1 := h.1
  have h2 := ha.1
  have h3 := hd.2
  omega

lemma covers_addr (h : e.size ≠ 0) : e.Covers e.addr := by
  rw [E820Entry.Covers, E820Entry.stop]
  omega

structure Agree (m m' : List E820Entry) : Prop where
  covered : ∀ a, (∃ e ∈ m, e.Covers a) ↔ ∃ e ∈ m', e.Covers a
  type_eq : ∀ a, ∀ e ∈ m, ∀ e' ∈ m', e.Covers a → e'.Covers a → e.type = e'.type

lemma Agree.symm (h : Agree m m') : Agree m' m :=
  ⟨fun a => (h.covered a).symm, fun a e he e' he' hc hc' => (h.type_eq a e' he' e he hc' hc).symm⟩

lemma Agree.addr_le (h : Agree (e :: es) (e' :: es')) (hsize : e'.size ≠ 0)
    (hap : (e :: es).Pairwise Apart) : e.addr ≤ e'.addr := by
  obtain ⟨d, hd, hc⟩ := (h.covered e'.addr).mpr ⟨e', mem_cons_self, covers_addr hsize⟩
  rcases mem_cons.mp hd with rfl | hd
  · exact hc.1
  · have h1 := ((pairwise_cons.mp hap).1 d hd).1
    have h2 := hc.1
    rw [E820Entry.stop] at h1
    omega

lemma Agree.stop_le (h : Agree (e :: es) (e' :: es')) (hsize : e.size ≠ 0)
    (hap : (e :: es).Pairwise Apart) (haddr : e.addr = e'.addr) (htype : e.type = e'.type) :
    e'.stop ≤ e.stop := by
  by_contra hlt
  have hin : e'.Covers e.stop :=
    ⟨by rw [← haddr, E820Entry.stop]; exact Nat.le_add_right _ _, Nat.lt_of_not_le hlt⟩
  obtain ⟨d, hd, hc⟩ := (h.covered e.stop).mpr ⟨e', mem_cons_self, hin⟩
  rcases mem_cons.mp hd with rfl | hd
  · exact absurd hc.2 (lt_irrefl _)
  · obtain ⟨h1, h2⟩ := (pairwise_cons.mp hap).1 d hd
    have h3 := hc.1
    refine h2 (by omega) ?_
    rw [htype, h.type_eq e.stop d (mem_cons_of_mem _ hd) e' mem_cons_self hc hin]

lemma Agree.tail (h : Agree (e :: es) (e :: es')) (hap : (e :: es).Pairwise Apart)
    (hap' : (e :: es').Pairwise Apart) : Agree es es' where
  covered := fun a => by
    have key : ∀ {l l' : List E820Entry}, (∀ d ∈ l, Apart e d) →
        (∃ d ∈ e :: l', d.Covers a) → (∃ d ∈ l, d.Covers a) → ∃ d ∈ l', d.Covers a := by
      rintro l l' hl ⟨d', hd', hc'⟩ ⟨d, hd, hc⟩
      rcases mem_cons.mp hd' with rfl | hd'
      · exact absurd hc' ((hl d hd).not_covers hc)
      · exact ⟨d', hd', hc'⟩
    have hcons : ∀ {l : List E820Entry}, (∃ d ∈ l, d.Covers a) → ∃ d ∈ e :: l, d.Covers a :=
      fun ⟨d, hd, hc⟩ => ⟨d, mem_cons_of_mem _ hd, hc⟩
    exact ⟨fun hx => key (pairwise_cons.mp hap).1 ((h.covered a).mp (hcons hx)) hx,
      fun hx => key (pairwise_cons.mp hap').1 ((h.covered a).mpr (hcons hx)) hx⟩
  type_eq := fun a d hd d' hd' => h.type_eq a d (mem_cons_of_mem _ hd) d' (mem_cons_of_mem _ hd')

lemma Agree.eq : ∀ {m m' : List E820Entry}, Agree m m' → (∀ e ∈ m, e.size ≠ 0) →
    (∀ e ∈ m', e.size ≠ 0) → m.Pairwise Apart → m'.Pairwise Apart → m = m'
  | [], [], _, _, _, _, _ => rfl
  | [], e' :: _, h, _, hs', _, _ => by
    obtain ⟨d, hd, -⟩ := (h.covered e'.addr).mpr
      ⟨e', mem_cons_self, covers_addr (hs' e' mem_cons_self)⟩
    cases hd
  | e :: _, [], h, hs, _, _, _ => by
    obtain ⟨d, hd, -⟩ := (h.covered e.addr).mp ⟨e, mem_cons_self, covers_addr (hs e mem_cons_self)⟩
    cases hd
  | e :: es, e' :: es', h, hs, hs', hap, hap' => by
    have hse := hs e mem_cons_self
    have hse' := hs' e' mem_cons_self
    have haddr := Nat.le_antisymm (h.addr_le hse' hap) (h.symm.addr_le hse hap')
    have htype : e.type = e'.type := h.type_eq e.addr e mem_cons_self e' mem_cons_self
      (covers_addr hse) (haddr ▸ covers_addr hse')
    have hstop := Nat.le_antisymm (h.symm.stop_le hse' hap' haddr.symm htype.symm)
      (h.stop_le hse hap haddr htype)
    have heq : e = e' := by
      cases e
      cases e'
      simp only [E820Entry.stop, E820Entry.mk.injEq] at *
      omega
    subst heq
    rw [(h.tail hap hap').eq (fun d hd => hs d (mem_cons_of_mem _ hd))
      (fun d hd => hs' d (mem_cons_of_mem _ hd)) (pairwise_cons.mp hap).2
      (pairwise_cons.mp hap').2]

lemma Sanitized.unique {old : List E820Entry} (h : Sanitized old m)
    (h' : Sanitized old m') : m = m' := by
  refine Agree.eq ⟨fun a => ?_,
    fun a e he e' he' hc hc' => ?_⟩ h.size_ne h'.size_ne h.apart h'.apart
  · rw [← h.covered, ← h'.covered]
  obtain ⟨⟨o, ho, hoc, heq⟩, hmax⟩ := h.type_eq a e he hc
  obtain ⟨⟨o', ho', hoc', heq'⟩, hmax'⟩ := h'.type_eq a e' he' hc'
  have h1 := hmax o' ho' hoc'
  have h2 := hmax' o ho hoc
  omega

lemma currentType_aux : ∀ (l : List ℕ) (t r : ℕ),
    l.foldl (fun t p => if t < (entryAt biosmap p).type then (entryAt biosmap p).type else t) t
    = r → t ≤ r ∧ (∀ p ∈ l, (entryAt biosmap p).type ≤ r) ∧
      (r = t ∨ ∃ p ∈ l, (entryAt biosmap p).type = r)
  | [], t, r, h => ⟨Nat.le_of_eq h, forall_mem_nil _, .inl h.symm⟩
  | q :: l, t, r, h => by
    obtain ⟨h1, h2, h3⟩ := currentType_aux l _ r h
    dsimp only at h1 h3
    refine ⟨by split at h1 <;> omega, forall_mem_cons.mpr ⟨by split at h1 <;> omega, h2⟩, ?_⟩
    rcases h3 with h3 | ⟨p, hp, h3⟩
    · split at h3
      · exact .inr ⟨q, mem_cons_self, h3.symm⟩
      · exact .inl h3
    · exact .inr ⟨p, mem_cons_of_mem _ hp, h3⟩

lemma le_currentType {p : ℕ} (hp : p ∈ l) :
    (entryAt biosmap p).type ≤ currentType biosmap l :=
  (currentType_aux l 0 _ rfl).2.1 p hp

lemma exists_currentType (h : currentType biosmap l ≠ 0) :
    ∃ p ∈ l, (entryAt biosmap p).type = currentType biosmap l :=
  (currentType_aux l 0 _ rfl).2.2.resolve_left h

lemma currentType_mono {l' : List ℕ} (h : ∀ p ∈ l, p ∈ l') :
    currentType biosmap l ≤ currentType biosmap l' := by
  by_cases h0 : currentType biosmap l = 0
  · omega
  · obtain ⟨p, hp, heq⟩ := exists_currentType h0
    rw [← heq]
    exact le_currentType (h p hp)

def covering (biosmap : List E820Entry) (a : ℕ) : List ℕ :=
  (List.range biosmap.length).filter fun i =>
    decide ((entryAt biosmap i).addr ≤ a ∧ a < (entryAt biosmap i).stop)

lemma mem_covering :
    i ∈ covering biosmap a ↔ i < biosmap.length ∧ (entryAt biosmap i).Covers a := by
  rw [covering, mem_filter, mem_range, decide_eq_true_eq]
  rfl

lemma entryAt_mem (h : i < biosmap.length) : entryAt biosmap i ∈ biosmap := by
  rw [entryAt, getD_eq_getElem _ _ h]
  exact getElem_mem h

lemma exists_entryAt (h : e ∈ biosmap) :
    ∃ i, i < biosmap.length ∧ entryAt biosmap i = e := by
  obtain ⟨i, hi, rfl⟩ := getElem_of_mem h
  exact ⟨i, hi, by rw [entryAt, getD_eq_getElem _ _ hi]⟩

/-- The change points are the starts and the ends of the entries that are not empty. -/
def IsPoint (biosmap : List E820Entry) (c : ChangeMember) : Prop :=
  c.pbios < biosmap.length ∧ (entryAt biosmap c.pbios).size ≠ 0 ∧
    (c.addr = (entryAt biosmap c.pbios).addr ∨ c.addr = (entryAt biosmap c.pbios).stop)

lemma mem_changePoints_aux : ∀ {es : List E820Entry} {k : ℕ}, (∀ e ∈ es, e.stop < 2 ^ 64) →
    (c ∈ changePoints k es ↔ k ≤ c.pbios ∧ IsPoint es ⟨c.pbios - k, c.addr⟩)
  | [], k, _ => by simp [changePoints, IsPoint]
  | e :: es, k, h => by
    rw [forall_mem_cons] at h
    have ih := mem_changePoints_aux (k := k + 1) h.2
    have hstop : addMod 64 e.addr e.size = e.stop := Nat.mod_eq_of_lt h.1
    have hcons : c ∈ changePoints k (e :: es) ↔
        (e.size ≠ 0 ∧ (c = ⟨k, e.addr⟩ ∨ c = ⟨k, e.stop⟩)) ∨ c ∈ changePoints (k + 1) es := by
      rw [changePoints, hstop]
      split
      · next hsize => simp [hsize, or_assoc]
      · next hsize => simp [not_not.mp hsize]
    rw [hcons, ih]
    rcases Nat.lt_trichotomy c.pbios k with hlt | heq | hgt
    · refine iff_of_false ?_ (by omega)
      rintro (⟨-, rfl | rfl⟩ | ⟨h', -⟩)
      · exact lt_irrefl _ hlt
      · exact lt_irrefl _ hlt
      · omega
    · obtain ⟨p, a⟩ := c
      dsimp only at heq
      subst heq
      simp only [ChangeMember.mk.injEq, true_and, IsPoint, Nat.sub_self, entryAt, Nat.le_refl]
      constructor
      · rintro (⟨h1, h2⟩ | ⟨h1, -⟩)
        · exact ⟨Nat.succ_pos _, h1, h2⟩
        · omega
      · rintro ⟨-, h1, h2⟩
        exact .inl ⟨h1, h2⟩
    · obtain ⟨j, hj⟩ : ∃ j, c.pbios - k = j + 1 := ⟨c.pbios - k - 1, by omega⟩
      have hj' : c.pbios - (k + 1) = j := by omega
      rw [hj, hj']
      have hne : ¬ (e.size ≠ 0 ∧ (c = ⟨k, e.addr⟩ ∨ c = ⟨k, e.stop⟩)) := by
        rintro ⟨-, rfl | rfl⟩
        · exact lt_irrefl _ hgt
        · exact lt_irrefl _ hgt
      simp only [hne, false_or, IsPoint, entryAt, getD_cons_succ, length_cons,
        Nat.add_lt_add_iff_right, Nat.succ_le_of_lt hgt, hgt.le]

lemma mem_changePoints (h : ∀ e ∈ biosmap, e.stop < 2 ^ 64) :
    c ∈ changePoints 0 biosmap ↔ IsPoint biosmap c := by
  rw [mem_changePoints_aux h]
  exact and_iff_right (Nat.zero_le _)

lemma nodup_changePoints : ∀ {es : List E820Entry} {k : ℕ}, (∀ e ∈ es, e.stop < 2 ^ 64) →
    (changePoints k es).Nodup
  | [], _, _ => nodup_nil
  | e :: es, k, h => by
    rw [forall_mem_cons] at h
    have ih := nodup_changePoints (k := k + 1) h.2
    have hstop : addMod 64 e.addr e.size = e.stop := Nat.mod_eq_of_lt h.1
    have hout (a : ℕ) : ⟨k, a⟩ ∉ changePoints (k + 1) es := by
      rw [mem_changePoints_aux h.2]
      dsimp only
      omega
    rw [changePoints, hstop]
    split
    · next hsize =>
      refine nodup_cons.mpr ⟨?_, nodup_cons.mpr ⟨hout _, ih⟩⟩
      rw [mem_cons, ChangeMember.mk.injEq, E820Entry.stop]
      rintro (⟨-, h'⟩ | h')
      · omega
      · exact hout _ h'
    · exact ih

lemma swapPoints_eq_false {a : ChangeMember} : swapPoints biosmap b a = false ↔
    a.addr < b.addr ∨ (a.addr = b.addr
    ∧ (isStart biosmap b = true → isStart biosmap a = true)) := by
  simp only [swapPoints, Bool.or_eq_false_iff, decide_eq_false_iff_not]
  by_cases hlt : b.addr < a.addr
  · refine iff_of_false (fun h => h.1 hlt) (by omega)
  · by_cases heq : b.addr = a.addr
    · cases hb : isStart biosmap b <;> cases ha : isStart biosmap a <;> simp [heq]
    · simp [hlt, heq, show a.addr < b.addr by omega]

lemma sorted_points (biosmap : List E820Entry) :
    (BubbleSort.sort (swapPoints biosmap) (swapPoints_asymm biosmap)
    (changePoints 0 biosmap)).Pairwise fun a b => swapPoints biosmap b a = false := by
  have htrans : ∀ a b c, swapPoints biosmap b a = false → swapPoints biosmap c b = false →
      swapPoints biosmap c a = false := by
    intro a b c hab hbc
    rw [swapPoints_eq_false] at *
    rcases hab with hab | ⟨hab, hab'⟩ <;> rcases hbc with hbc | ⟨hbc, hbc'⟩
    · exact .inl (by omega)
    · exact .inl (by omega)
    · exact .inl (by omega)
    · exact .inr ⟨by omega, fun hc => hab' (hbc' hc)⟩
  have : IsTrans ChangeMember fun a b => swapPoints biosmap b a = false := ⟨htrans⟩
  exact (BubbleSort.sort_isChain (swapPoints_asymm biosmap) _).pairwise

section

lemma removeOverlap_spec {x : ℕ} (hn : l.Nodup) (hx : x ∈ l) :
    (removeOverlap l x).Nodup ∧ ∀ p, p ∈ removeOverlap l x ↔ p ∈ l ∧ p ≠ x := by
  obtain ⟨l, z, rfl⟩ := (eq_nil_or_concat l).resolve_left (ne_nil_of_mem hx)
  rw [concat_eq_append] at *
  obtain ⟨hl, -, hz⟩ := nodup_append.mp hn
  have hzl : z ∉ l := fun h => hz z h z mem_cons_self rfl
  have heq : removeOverlap (l ++ [z]) x = l.map fun p => if p = x then z else p := by
    simp [removeOverlap]
  rw [heq]
  rcases mem_append.mp hx with hxl | hxl
  · have hxz : x ≠ z := fun h => hzl (h ▸ hxl)
    constructor
    · refine Nodup.map_on (fun p hp q hq h => ?_) hl
      split_ifs at h with h1 h2 h2
      · rw [h1, h2]
      · exact absurd (h ▸ hq) hzl
      · exact absurd (h ▸ hp) hzl
      · exact h
    · intro p
      simp only [mem_map, mem_append, mem_singleton]
      constructor
      · rintro ⟨q, hq, rfl⟩
        split_ifs with h
        · exact ⟨.inr rfl, hxz.symm⟩
        · exact ⟨.inl hq, h⟩
      · rintro ⟨hp | rfl, hne⟩
        · exact ⟨p, hp, if_neg hne⟩
        · exact ⟨x, hxl, if_pos rfl⟩
  · rw [mem_singleton] at hxl
    subst hxl
    have hid : (l.map fun p => if p = x then x else p) = l := by
      conv_rhs => rw [← map_id l]
      refine map_congr_left fun p _ => ?_
      split_ifs with h
      · exact h.symm
      · rfl
    rw [hid]
    refine ⟨hl, fun p => ?_⟩
    rw [mem_append, mem_singleton]
    exact ⟨fun hp => ⟨.inl hp, fun h => hzl (h ▸ hp)⟩, fun ⟨hp, hne⟩ => hp.resolve_right hne⟩

structure Walk (biosmap : List E820Entry) (pre rest : List ChangeMember) : Prop where
  mem : ∀ c, c ∈ pre ++ rest ↔ IsPoint biosmap c
  nodup : (pre ++ rest).Nodup
  sorted : (pre ++ rest).Pairwise fun a b => swapPoints biosmap b a = false

section

variable (h : Walk biosmap pre (c :: rest))

include h

lemma Walk.next : Walk biosmap (pre ++ [c]) rest := by
  obtain ⟨h1, h2, h3⟩ := h
  rw [← singleton_append, ← append_assoc] at h1 h2 h3
  exact ⟨h1, h2, h3⟩

omit h in
lemma addr_le_of_sorted {a : ChangeMember} (h : swapPoints biosmap b a = false) :
    a.addr ≤ b.addr := by rcases swapPoints_eq_false.mp h with h | ⟨h, -⟩ <;> omega

lemma Walk.point : IsPoint biosmap c :=
  (h.mem c).mp (mem_append_right _ mem_cons_self)

lemma Walk.le_of_pre (hb : b ∈ pre) :
    b.addr ≤ c.addr :=
  addr_le_of_sorted ((pairwise_append.mp h.sorted).2.2 b hb c mem_cons_self)

lemma Walk.sorted_rest (hb : b ∈ rest) :
    swapPoints biosmap b c = false :=
  (pairwise_cons.mp (pairwise_append.mp h.sorted).2.1).1 b hb

lemma Walk.le_rest (hb : b ∈ rest) :
    c.addr ≤ b.addr :=
  addr_le_of_sorted (h.sorted_rest hb)

lemma Walk.not_mem : c ∉ pre :=
  fun hc => (nodup_append.mp h.nodup).2.2 c hc c mem_cons_self rfl

lemma Walk.mem_pre (hb : IsPoint biosmap b)
    (hlt : b.addr < c.addr) : b ∈ pre := by
  rcases mem_append.mp ((h.mem b).mpr hb) with hb | hb
  · exact hb
  · rcases mem_cons.mp hb with rfl | hb
    · exact absurd hlt (lt_irrefl _)
    · exact absurd (h.le_rest hb) (by omega)

end

def startOf (biosmap : List E820Entry) (i : ℕ) : ChangeMember := ⟨i, (entryAt biosmap i).addr⟩
def endOf (biosmap : List E820Entry) (i : ℕ) : ChangeMember := ⟨i, (entryAt biosmap i).stop⟩

def Overlaps (biosmap : List E820Entry) (pre : List ChangeMember) (i : ℕ) : Prop :=
  (i < biosmap.length ∧ (entryAt biosmap i).size ≠ 0) ∧ startOf biosmap i ∈ pre ∧
    endOf biosmap i ∉ pre

lemma addr_lt_stop (h : e.size ≠ 0) : e.addr < e.stop := by
  rw [E820Entry.stop]
  omega

lemma isPoint_startOf (h : i < biosmap.length ∧ (entryAt biosmap i).size ≠ 0) :
    IsPoint biosmap (startOf biosmap i) := ⟨h.1, h.2, .inl rfl⟩

lemma isPoint_endOf (h : i < biosmap.length ∧ (entryAt biosmap i).size ≠ 0) :
    IsPoint biosmap (endOf biosmap i) := ⟨h.1, h.2, .inr rfl⟩

lemma IsPoint.cases (h : IsPoint biosmap c) :
    (isStart biosmap c = true ∧ c = startOf biosmap c.pbios) ∨
      (isStart biosmap c = false ∧ c = endOf biosmap c.pbios) := by
  obtain ⟨p, a⟩ := c
  obtain ⟨-, hsize, ha | ha⟩ := h
  · exact .inl ⟨decide_eq_true ha, by rw [startOf, ← ha]⟩
  · refine .inr ⟨decide_eq_false ?_, by rw [endOf, ← ha]⟩
    dsimp only at *
    have := addr_lt_stop hsize
    omega

lemma Walk.overlapAfter (h : Walk biosmap pre (c :: rest)) {s : Sweep}
    (hn : s.overlapList.Nodup) (hmem : ∀ i, i ∈ s.overlapList ↔ Overlaps biosmap pre i) :
    (overlapAfter biosmap s c).Nodup ∧
      (∀ i, i ∈ overlapAfter biosmap s c ↔ Overlaps biosmap (pre ++ [c]) i) ∧
      (∀ i, i ∈ overlapAfter biosmap s c ↔ if isStart biosmap c then i ∈ s.overlapList ∨ i = c.pbios
        else i ∈ s.overlapList ∧ i ≠ c.pbios) := by
  have hpt := h.point
  have hlive : c.pbios < biosmap.length ∧ (entryAt biosmap c.pbios).size ≠ 0 := ⟨hpt.1, hpt.2.1⟩
  have hlt := addr_lt_stop hlive.2
  rw [E820.overlapAfter]
  rcases hpt.cases with ⟨hst, hc⟩ | ⟨hst, hc⟩
  · have haddr : c.addr = (entryAt biosmap c.pbios).addr := congrArg ChangeMember.addr hc
    have hnot : c.pbios ∉ s.overlapList := by
      intro hin
      have := ((hmem _).mp hin).2.1
      rw [← hc] at this
      exact h.not_mem this
    simp only [hst, if_true]
    refine ⟨?_, fun i => ?_, fun i => by rw [mem_append, mem_singleton]⟩
    · exact nodup_append.mpr ⟨hn, nodup_singleton _, fun a ha b hb => by
        rw [mem_singleton.mp hb]
        exact fun he => hnot (he ▸ ha)⟩
    have hend : endOf biosmap i ≠ c ∨ ¬ (i < biosmap.length ∧ (entryAt biosmap i).size ≠ 0) := by
      by_cases hl : i < biosmap.length ∧ (entryAt biosmap i).size ≠ 0
      · refine .inl fun he => ?_
        have hi : i = c.pbios := congrArg ChangeMember.pbios he
        have ha : (entryAt biosmap i).stop = c.addr := congrArg ChangeMember.addr he
        subst hi
        omega
      · exact .inr hl
    rw [mem_append, mem_singleton, hmem, Overlaps, Overlaps, mem_append,
      mem_append, mem_singleton, mem_singleton]
    constructor
    · rintro (⟨hl, hs, he⟩ | rfl)
      · exact ⟨hl, .inl hs, fun h' => h'.elim he (hend.resolve_right (not_not.mpr hl))⟩
      · refine ⟨hlive, .inr hc.symm, fun h' => h'.elim (fun he => ?_)
          (hend.resolve_right (not_not.mpr hlive))⟩
        have hle : (entryAt biosmap c.pbios).stop ≤ c.addr := h.le_of_pre he
        omega
    · rintro ⟨hl, hs | hs, he⟩
      · exact .inl ⟨hl, hs, fun h' => he (.inl h')⟩
      · exact .inr (congrArg ChangeMember.pbios hs)
  · have haddr : c.addr = (entryAt biosmap c.pbios).stop := congrArg ChangeMember.addr hc
    have hin : c.pbios ∈ s.overlapList := by
      refine (hmem _).mpr ⟨hlive, h.mem_pre (isPoint_startOf hlive) ?_, ?_⟩
      · show (entryAt biosmap c.pbios).addr < c.addr
        omega
      · rw [← hc]
        exact h.not_mem
    obtain ⟨hnd, hrem⟩ := removeOverlap_spec hn hin
    simp only [hst, Bool.false_eq_true, if_false]
    refine ⟨hnd, fun i => ?_, hrem⟩
    have hstart : startOf biosmap i ≠ c
        ∨ ¬ (i < biosmap.length ∧ (entryAt biosmap i).size ≠ 0) := by
      by_cases hl : i < biosmap.length ∧ (entryAt biosmap i).size ≠ 0
      · refine .inl fun he => ?_
        have hi : i = c.pbios := congrArg ChangeMember.pbios he
        have ha : (entryAt biosmap i).addr = c.addr := congrArg ChangeMember.addr he
        subst hi
        omega
      · exact .inr hl
    rw [hrem, hmem, Overlaps, Overlaps, mem_append, mem_append, mem_singleton, mem_singleton]
    constructor
    · rintro ⟨⟨hl, hs, he⟩, hne⟩
      exact ⟨hl, .inl hs, fun h' => h'.elim he fun h' => hne (congrArg ChangeMember.pbios h')⟩
    · rintro ⟨hl, hs, he⟩
      refine ⟨⟨hl, hs.resolve_right (hstart.resolve_right (not_not.mpr hl)),
        fun h' => he (.inl h')⟩, fun hi => he (.inr ?_)⟩
      rw [hi, ← hc]

lemma Walk.overlaps_iff (h : Walk biosmap pre (c :: rest)) (hca : c.addr ≤ a)
    (ha : ∀ b ∈ rest, a < b.addr) (i : ℕ) :
    Overlaps biosmap (pre ++ [c]) i ↔ i ∈ covering biosmap a := by
  have hpassed {b : ChangeMember} (hb : IsPoint biosmap b) : b ∈ pre ++ [c] ↔ b.addr ≤ a := by
    constructor
    · intro hin
      rcases mem_append.mp hin with hin | hin
      · exact (h.le_of_pre hin).trans hca
      · rwa [mem_singleton.mp hin]
    · intro hle
      rcases mem_append.mp ((h.next.mem b).mpr hb) with hin | hin
      · exact hin
      · exact absurd (ha b hin) (by omega)
  rw [mem_covering, E820Entry.Covers]
  constructor
  · rintro ⟨hl, hs, he⟩
    exact ⟨hl.1, (hpassed (isPoint_startOf hl)).mp hs,
      Nat.lt_of_not_le fun hle => he ((hpassed (isPoint_endOf hl)).mpr hle)⟩
  rintro ⟨hi, hs, he⟩
  have hl : i < biosmap.length ∧ (entryAt biosmap i).size ≠ 0 := by
    refine ⟨hi, fun h0 => ?_⟩
    rw [E820Entry.stop] at he
    omega
  exact ⟨hl, (hpassed (isPoint_startOf hl)).mpr hs,
    fun hin => absurd ((hpassed (isPoint_endOf hl)).mp hin) (Nat.not_le_of_lt he)⟩

end

section

variable {s : Sweep}

/-- An entry that ends at a change point to come: a greater type starts there, or the type has
fallen and only ends are to come there. -/
def Turned (biosmap : List E820Entry) (rest : List ChangeMember) (overlap : List ℕ) (type : ℕ)
    (e : E820Entry) : Prop :=
  (∃ i ∈ overlap, (entryAt biosmap i).addr = e.stop ∧ e.type < (entryAt biosmap i).type) ∨
    (type < e.type ∧ ∀ b ∈ rest, b.addr = e.stop → isStart biosmap b = false)

/-- The state of the loop between two change points. -/
structure SweepInv (biosmap : List E820Entry) (pre rest : List ChangeMember) (s : Sweep) :
    Prop where
  nodup : s.overlapList.Nodup
  mem : ∀ i, i ∈ s.overlapList ↔ Overlaps biosmap pre i
  type_eq : s.lastType = currentType biosmap s.overlapList
  slot : s.lastType ≠ 0 → s.slot.addr = s.lastAddr ∧ s.slot.type = s.lastType
  size_ne : ∀ e ∈ s.newBios, e.size ≠ 0 ∧ e.type ≠ 0
  apart : s.newBios.Pairwise Apart
  below : ∀ e ∈ s.newBios, ∀ b ∈ rest, e.stop ≤ b.addr
  opened : s.lastType ≠ 0 → (∀ b ∈ rest, s.lastAddr ≤ b.addr) ∧
    ∀ e ∈ s.newBios, e.stop ≤ s.lastAddr ∧ (e.stop = s.lastAddr → e.type ≠ s.lastType)
  turned : ∀ e ∈ s.newBios, (∃ b ∈ rest, b.addr = e.stop) →
    Turned biosmap rest s.overlapList s.lastType e
  covers : ∀ a, (∀ b ∈ rest, a < b.addr) →
    (∀ e ∈ s.newBios, e.Covers a → e.type = currentType biosmap (covering biosmap a)) ∧
    (s.lastType ≠ 0 → s.lastAddr ≤ a → s.lastType = currentType biosmap (covering biosmap a)) ∧
    (currentType biosmap (covering biosmap a) ≠ 0 →
      (∃ e ∈ s.newBios, e.Covers a) ∨ (s.lastType ≠ 0 ∧ s.lastAddr ≤ a))

def step (biosmap : List E820Entry) (s : Sweep) (c : ChangeMember) : Sweep :=
  let s := { s with overlapList := overlapAfter biosmap s c }
  let type := currentType biosmap s.overlapList
  if type ≠ s.lastType then openEntry (closeEntry s c.addr) c.addr type else s

lemma SweepInv.type_after (h : SweepInv biosmap pre (c :: rest) s)
    (hw : Walk biosmap pre (c :: rest)) :
    (isStart biosmap c = true → s.lastType ≤ currentType biosmap (overlapAfter biosmap s c) ∧
      (s.lastType ≠ currentType biosmap (overlapAfter biosmap s c) →
        s.lastType < (entryAt biosmap c.pbios).type)) ∧
    (isStart biosmap c = false → currentType biosmap (overlapAfter biosmap s c) ≤ s.lastType) := by
  obtain ⟨-, -, hmem⟩ := hw.overlapAfter h.nodup h.mem
  rw [h.type_eq]
  constructor
  · intro hst
    simp only [hst, if_true] at hmem
    have hle : currentType biosmap s.overlapList ≤ currentType biosmap (overlapAfter biosmap s c) :=
      currentType_mono fun p hp => (hmem p).mpr (.inl hp)
    refine ⟨hle, fun hne => ?_⟩
    obtain ⟨p, hp, heq⟩ : ∃ p ∈ overlapAfter biosmap s c,
        (entryAt biosmap p).type = currentType biosmap (overlapAfter biosmap s c) :=
      exists_currentType (by omega)
    rcases (hmem p).mp hp with hp | rfl
    · have hple : (entryAt biosmap p).type ≤ currentType biosmap s.overlapList := le_currentType hp
      omega
    · omega
  · intro hst
    simp only [hst, Bool.false_eq_true, if_false] at hmem
    exact currentType_mono fun p hp => ((hmem p).mp hp).1

lemma SweepInv.turned_after (h : SweepInv biosmap pre (c :: rest) s)
    (hw : Walk biosmap pre (c :: rest)) (he : e ∈ s.newBios)
    (heq : e.stop = c.addr) :
    Turned biosmap rest (overlapAfter biosmap s c)
        (currentType biosmap (overlapAfter biosmap s c)) e ∧
      e.type ≠ currentType biosmap (overlapAfter biosmap s c) := by
  obtain ⟨-, -, hmem⟩ := hw.overlapAfter h.nodup h.mem
  rcases h.turned e he ⟨c, mem_cons_self, heq.symm⟩ with ⟨i, hi, hia, hty⟩ | ⟨hty, hends⟩
  · have hin : i ∈ overlapAfter biosmap s c := by
      rw [hmem]
      split
      · exact .inl hi
      next hst =>
      refine ⟨hi, fun hic => ?_⟩
      have hlive := ((h.mem i).mp hi).1
      have hc := (hw.point.cases.resolve_left fun h' => hst h'.1).2
      have haddr : c.addr = (entryAt biosmap c.pbios).stop := congrArg ChangeMember.addr hc
      have := addr_lt_stop hlive.2
      subst hic
      omega
    have hle : (entryAt biosmap i).type ≤ currentType biosmap (overlapAfter biosmap s c) :=
      le_currentType hin
    exact ⟨.inl ⟨i, hin, hia, hty⟩, by omega⟩
  · have hst := hends c mem_cons_self heq.symm
    have hle := (h.type_after hw).2 hst
    exact ⟨.inr ⟨by omega, fun b hb => hends b (mem_cons_of_mem _ hb)⟩, by omega⟩

structure Ended (biosmap : List E820Entry) (c : ChangeMember) (rest : List ChangeMember)
    (overlap : List ℕ) (newBios : List E820Entry) : Prop where
  size_ne : ∀ e ∈ newBios, e.size ≠ 0 ∧ e.type ≠ 0
  apart : newBios.Pairwise Apart
  below : ∀ e ∈ newBios, e.stop ≤ c.addr
  turned : ∀ e ∈ newBios, e.stop = c.addr →
    Turned biosmap rest overlap (currentType biosmap overlap) e ∧
      e.type ≠ currentType biosmap overlap
  covers : ∀ a < c.addr,
    (∀ e ∈ newBios, e.Covers a → e.type = currentType biosmap (covering biosmap a)) ∧
    (currentType biosmap (covering biosmap a) ≠ 0 → ∃ e ∈ newBios, e.Covers a)

lemma SweepInv.below_next (hw : Walk biosmap pre (c :: rest)) (ha : a < c.addr) :
    ∀ b ∈ c :: rest, a < b.addr :=
  forall_mem_cons.mpr ⟨ha, fun _ hb => ha.trans_le (hw.le_rest hb)⟩

section

variable (h : SweepInv biosmap pre (c :: rest) s)

include h

lemma SweepInv.ended_same
    (hw : Walk biosmap pre (c :: rest)) (hnone : s.lastType ≠ 0 → s.lastAddr = c.addr) :
    Ended biosmap c rest (overlapAfter biosmap s c) s.newBios where
  size_ne := h.size_ne
  apart := h.apart
  below := fun e he => h.below e he c mem_cons_self
  turned := fun _ he heq => h.turned_after hw he heq
  covers := fun a ha => by
    obtain ⟨h1, -, h3⟩ := h.covers a (below_next hw ha)
    refine ⟨h1, fun h0 => (h3 h0).resolve_right ?_⟩
    rintro ⟨ht, hle⟩
    rw [hnone ht] at hle
    omega

lemma SweepInv.ended_push
    (hw : Walk biosmap pre (c :: rest)) (ht : s.lastType ≠ 0) (hlt : s.lastAddr < c.addr)
    (hne : currentType biosmap (overlapAfter biosmap s c) ≠ s.lastType) :
    Ended biosmap c rest (overlapAfter biosmap s c)
      (s.newBios ++ [⟨s.lastAddr, c.addr - s.lastAddr, s.lastType⟩]) := by
  obtain ⟨-, hopen⟩ := h.opened ht
  have hstop : (E820Entry.mk s.lastAddr (c.addr - s.lastAddr) s.lastType).stop = c.addr :=
    Nat.add_sub_cancel' hlt.le
  refine ⟨?_, ?_, ?_, ?_, fun a ha => ?_⟩
  · refine forall_mem_append.mpr ⟨h.size_ne, forall_mem_singleton.mpr ⟨?_, ht⟩⟩
    show c.addr - s.lastAddr ≠ 0
    omega
  · refine pairwise_append.mpr ⟨h.apart, pairwise_singleton _ _, fun d hd e he => ?_⟩
    rw [mem_singleton.mp he]
    exact hopen d hd
  · exact forall_mem_append.mpr ⟨fun e he => h.below e he c mem_cons_self,
      forall_mem_singleton.mpr hstop.le⟩
  · refine forall_mem_append.mpr ⟨fun e he heq => ?_, forall_mem_singleton.mpr fun _ => ?_⟩
    · have := (hopen e he).1
      omega
    · obtain ⟨hup, hdown⟩ := h.type_after hw
      refine ⟨?_, hne.symm⟩
      rw [Turned, hstop]
      rcases hw.point.cases with ⟨hst, hc⟩ | ⟨hst, -⟩
      · obtain ⟨-, -, hmem⟩ := hw.overlapAfter h.nodup h.mem
        simp only [hst, if_true] at hmem
        exact .inl ⟨c.pbios, (hmem _).mpr (.inr rfl), (congrArg ChangeMember.addr hc).symm,
          (hup hst).2 hne.symm⟩
      · refine .inr ⟨lt_of_le_of_ne (hdown hst) hne, fun b hb hba => ?_⟩
        rcases swapPoints_eq_false.mp (hw.sorted_rest hb) with hb' | ⟨-, hb'⟩
        · omega
        · exact Bool.eq_false_iff.mpr fun hbs => by
            rw [hb' hbs] at hst
            cases hst
  · obtain ⟨h1, h2, h3⟩ := h.covers a (below_next hw ha)
    refine ⟨forall_mem_append.mpr ⟨h1, forall_mem_singleton.mpr fun hc => h2 ht hc.1⟩, fun h0 => ?_⟩
    rcases h3 h0 with ⟨e, he, hc⟩ | ⟨-, hle⟩
    · exact ⟨e, mem_append_left _ he, hc⟩
    · exact ⟨_, mem_append_right _ mem_cons_self, hle, by rw [hstop]; exact ha⟩

lemma SweepInv.type_from
    (hw : Walk biosmap pre (c :: rest)) (hca : c.addr ≤ a) (ha : ∀ b ∈ rest, a < b.addr) :
    currentType biosmap (covering biosmap a) = currentType biosmap (overlapAfter biosmap s c) := by
  obtain ⟨-, hov, -⟩ := hw.overlapAfter h.nodup h.mem
  have hiff (i : ℕ) : i ∈ overlapAfter biosmap s c ↔ i ∈ covering biosmap a :=
    (hov i).trans (hw.overlaps_iff hca ha i)
  exact Nat.le_antisymm (currentType_mono fun p hp => (hiff p).mpr hp)
    (currentType_mono fun p hp => (hiff p).mp hp)

lemma SweepInv.same (hw : Walk biosmap pre (c :: rest))
    (heq : currentType biosmap (overlapAfter biosmap s c) = s.lastType) :
    SweepInv biosmap (pre ++ [c]) rest { s with overlapList := overlapAfter biosmap s c } := by
  obtain ⟨hnd, hov, -⟩ := hw.overlapAfter h.nodup h.mem
  refine ⟨hnd, hov, heq.symm, h.slot, h.size_ne, h.apart,
    fun e he b hb => h.below e he b (mem_cons_of_mem _ hb),
    fun ht => ⟨fun b hb => (h.opened ht).1 b (mem_cons_of_mem _ hb), (h.opened ht).2⟩,
    fun e he ⟨b, hb, hbe⟩ => ?_, fun a ha => ?_⟩
  · have h1 := h.below e he c mem_cons_self
    have h2 := hw.le_rest hb
    have hturn := (h.turned_after hw he (by omega)).1
    rw [heq] at hturn
    exact hturn
  · by_cases hca : c.addr ≤ a
    · rw [h.type_from hw hca ha, heq]
      refine ⟨fun e he hc => ?_, fun _ _ => rfl, fun ht => .inr ⟨ht, ?_⟩⟩
      · have h1 := h.below e he c mem_cons_self
        have h2 := hc.2
        omega
      · exact ((h.opened ht).1 c mem_cons_self).trans hca
    · exact h.covers a (below_next hw (by omega))

lemma SweepInv.changed
    (hw : Walk biosmap pre (c :: rest))
    {newBios : List E820Entry} {slot : E820Entry} {lastAddr lastType : ℕ}
    (hend : Ended biosmap c rest (overlapAfter biosmap s c) newBios) :
    SweepInv biosmap (pre ++ [c]) rest
      (openEntry ⟨overlapAfter biosmap s c, newBios, slot, lastType, lastAddr⟩ c.addr
        (currentType biosmap (overlapAfter biosmap s c))) := by
  obtain ⟨hnd, hov, -⟩ := hw.overlapAfter h.nodup h.mem
  have hbelow : ∀ e ∈ newBios, ∀ b ∈ rest, e.stop ≤ b.addr :=
    fun e he b hb => (hend.below e he).trans (hw.le_rest hb)
  have hturn : ∀ e ∈ newBios, (∃ b ∈ rest, b.addr = e.stop) → Turned biosmap rest
      (overlapAfter biosmap s c) (currentType biosmap (overlapAfter biosmap s c)) e := by
    rintro e he ⟨b, hb, hbe⟩
    have h1 := hend.below e he
    have h2 := hw.le_rest hb
    exact (hend.turned e he (by omega)).1
  have hcov {a : ℕ} (hca : c.addr ≤ a) : ∀ e ∈ newBios, ¬ e.Covers a := by
    intro e he hc
    have h1 := hend.below e he
    have h2 := hc.2
    omega
  rw [openEntry]
  split
  · next ht =>
    refine ⟨hnd, hov, rfl, fun _ => ⟨rfl, rfl⟩, hend.size_ne, hend.apart, hbelow,
      fun _ => ⟨fun b hb => hw.le_rest hb,
        fun e he => ⟨hend.below e he, fun heq => (hend.turned e he heq).2⟩⟩, hturn, fun a ha => ?_⟩
    by_cases hca : c.addr ≤ a
    · rw [h.type_from hw hca ha]
      exact ⟨fun e he hc => absurd hc (hcov hca e he), fun _ _ => rfl, fun _ => .inr ⟨ht, hca⟩⟩
    · obtain ⟨h1, h2⟩ := hend.covers a (by omega)
      exact ⟨h1, fun _ hle => absurd hle hca, fun h0 => .inl (h2 h0)⟩
  · next ht =>
    rw [ne_eq, not_not] at ht
    refine ⟨hnd, hov, rfl, fun h0 => absurd ht h0, hend.size_ne, hend.apart, hbelow,
      fun h0 => absurd ht h0, hturn, fun a ha => ?_⟩
    by_cases hca : c.addr ≤ a
    · rw [h.type_from hw hca ha]
      exact ⟨fun e he hc => absurd hc (hcov hca e he), fun h0 _ => absurd ht h0,
        fun h0 => absurd ht h0⟩
    · obtain ⟨h1, h2⟩ := hend.covers a (by omega)
      exact ⟨h1, fun h0 => absurd ht h0, fun h0 => .inl (h2 h0)⟩

end

lemma SweepInv.step (h : SweepInv biosmap pre (c :: rest) s) (hw : Walk biosmap pre (c :: rest))
    (hc64 : c.addr < 2 ^ 64) : SweepInv biosmap (pre ++ [c]) rest (step biosmap s c) := by
  rw [E820.step]
  by_cases heq : currentType biosmap (overlapAfter biosmap s c) = s.lastType
  · simp only [heq, ne_eq, not_true_eq_false, if_false]
    exact h.same hw heq
  simp only [ne_eq, heq, not_false_eq_true, if_true]
  rw [closeEntry]
  by_cases ht : s.lastType = 0
  · rw [if_neg (not_not.mpr ht)]
    exact h.changed hw (h.ended_same hw fun h0 => absurd ht h0)
  have hle := (h.opened ht).1 c mem_cons_self
  have hsize : subMod 64 c.addr s.lastAddr = c.addr - s.lastAddr := subMod_of_le hle hc64
  rw [if_pos ht]
  simp only [hsize]
  by_cases hlt : s.lastAddr < c.addr
  · rw [if_pos (by omega)]
    have hslot : ({ s.slot with size := c.addr - s.lastAddr } : E820Entry)
        = ⟨s.lastAddr, c.addr - s.lastAddr, s.lastType⟩ := by
      show E820Entry.mk s.slot.addr _ s.slot.type = _
      rw [(h.slot ht).1, (h.slot ht).2]
    rw [hslot]
    exact h.changed hw (h.ended_push hw ht hlt heq)
  · rw [if_neg (by omega)]
    exact h.changed hw (h.ended_same hw fun _ => by omega)

end

lemma SweepInv.run (hlt : ∀ b, IsPoint biosmap b → b.addr < 2 ^ 64) :
    ∀ {rest pre : List ChangeMember} {s : Sweep}, SweepInv biosmap pre rest s →
      Walk biosmap pre rest → SweepInv biosmap (pre ++ rest) [] (rest.foldl (E820.step biosmap) s) ∧
        Walk biosmap (pre ++ rest) []
  | [], pre, s, h, hw => by
    rw [append_nil]
    exact ⟨h, hw⟩
  | c :: rest, pre, s, h, hw => by
    have := SweepInv.run hlt (h.step hw (hlt c hw.point)) hw.next
    rwa [append_assoc, singleton_append] at this

lemma length_openEntry (s : Sweep) (addr type : ℕ) :
    (openEntry s addr type).newBios.length = s.newBios.length := by
  rw [openEntry]
  split <;> rfl

lemma closeEntry_eq (s : Sweep) (addr : ℕ) :
    ∃ l slot, closeEntry s addr = { s with newBios := s.newBios ++ l, slot := slot } := by
  rw [closeEntry]
  by_cases h : s.lastType ≠ 0
  · rw [if_pos h]
    dsimp only
    by_cases h' : subMod 64 addr s.lastAddr ≠ 0
    · rw [if_pos h']
      exact ⟨_, _, rfl⟩
    · rw [if_neg h']
      exact ⟨[], _, by rw [append_nil]⟩
  · rw [if_neg h]
    exact ⟨[], s.slot, by rw [append_nil]⟩

lemma length_closeEntry (s : Sweep) (addr : ℕ) :
    s.newBios.length ≤ (closeEntry s addr).newBios.length := by
  obtain ⟨l, slot, heq⟩ := closeEntry_eq s addr
  rw [heq, length_append]
  exact Nat.le_add_right _ _

lemma length_step (s : Sweep) (c : ChangeMember) :
    s.newBios.length ≤ (step biosmap s c).newBios.length := by
  rw [step]
  by_cases h : currentType biosmap (overlapAfter biosmap s c) ≠ s.lastType
  · rw [if_pos h, length_openEntry]
    exact length_closeEntry { s with overlapList := overlapAfter biosmap s c } c.addr
  · rw [if_neg h]

lemma length_foldl : ∀ (cs : List ChangeMember) (s : Sweep),
    s.newBios.length ≤ (cs.foldl (step biosmap) s).newBios.length
  | [], _ => Nat.le_refl _
  | c :: cs, s => (length_step s c).trans (length_foldl cs (step biosmap s c))

lemma sweep_eq {maxNrMap : ℕ} : ∀ {cs : List ChangeMember} {s : Sweep},
    (cs.foldl (step biosmap) s).newBios.length < maxNrMap →
    sweep biosmap maxNrMap s cs = cs.foldl (step biosmap) s
  | [], _, _ => rfl
  | c :: cs, s, h => by
    rw [foldl_cons] at h ⊢
    have ih := sweep_eq h
    have hlen := (length_foldl cs (step biosmap s c)).trans_lt h
    rw [sweep]
    rw [step] at ih hlen ⊢
    dsimp only at ih hlen ⊢
    split
    · next hne =>
      rw [if_pos hne, length_openEntry] at hlen
      rw [if_pos hne] at ih
      rw [if_neg (by omega), ih]
    · next hne =>
      rw [if_neg hne] at ih
      exact ih

lemma sanitized_foldl (hb : Reasonable biosmap) :
    Sanitized biosmap ((BubbleSort.sort (swapPoints biosmap) (swapPoints_asymm biosmap)
      (changePoints 0 biosmap)).foldl (step biosmap) ⟨[], [], ⟨0, 0, 0⟩, 0, 0⟩).newBios := by
  have hperm := BubbleSort.sort_perm (swapPoints_asymm biosmap) (changePoints 0 biosmap)
  have hsort := sorted_points biosmap
  generalize BubbleSort.sort (swapPoints biosmap) (swapPoints_asymm biosmap)
    (changePoints 0 biosmap) = cs at hperm hsort
  have hw : Walk biosmap [] cs := by
    refine ⟨fun c => ?_, ?_, hsort⟩
    · rw [nil_append, hperm.mem_iff, mem_changePoints hb.stop_lt]
    · exact hperm.nodup_iff.mpr (nodup_changePoints hb.stop_lt)
  have hlt : ∀ b, IsPoint biosmap b → b.addr < 2 ^ 64 := by
    intro b hpt
    have hstop := hb.stop_lt _ (entryAt_mem hpt.1)
    have := addr_lt_stop hpt.2.1
    rcases hpt.2.2 with h | h <;> omega
  have h0 : SweepInv biosmap [] cs ⟨[], [], ⟨0, 0, 0⟩, 0, 0⟩ := by
    refine ⟨nodup_nil, fun i => ?_, rfl, fun h => absurd rfl h, forall_mem_nil _,
      List.Pairwise.nil, forall_mem_nil _, fun h => absurd rfl h, forall_mem_nil _,
      fun a ha => ?_⟩
    · exact iff_of_false not_mem_nil fun h => absurd h.2.1 not_mem_nil
    refine ⟨forall_mem_nil _, fun h => absurd rfl h, fun hne => ?_⟩
    obtain ⟨i, hi, -⟩ := exists_currentType hne
    obtain ⟨hi, hs, he⟩ := mem_covering.mp hi
    have hsize : (entryAt biosmap i).size ≠ 0 := by
      intro h0
      rw [E820Entry.stop] at he
      omega
    have := ha _ ((hw.mem _).mpr (isPoint_startOf ⟨hi, hsize⟩))
    exact absurd hs (Nat.not_le_of_lt this)
  obtain ⟨hinv, hwalk⟩ := h0.run hlt hw
  rw [nil_append] at hinv hwalk
  generalize cs.foldl (step biosmap) ⟨[], [], ⟨0, 0, 0⟩, 0, 0⟩ = s at hinv
  have hzero : s.lastType = 0 := by
    by_contra hne
    rw [hinv.type_eq] at hne
    obtain ⟨i, hi, -⟩ := exists_currentType hne
    obtain ⟨hl, -, he⟩ := (hinv.mem i).mp hi
    exact he (by simpa using (hwalk.mem _).mpr (isPoint_endOf hl))
  have hcov (a : ℕ) := hinv.covers a (forall_mem_nil _)
  have htype {a : ℕ} {e : E820Entry} (he : e ∈ s.newBios) (hc : e.Covers a) :
      ∃ i ∈ covering biosmap a, (entryAt biosmap i).type = e.type := by
    have heq := (hcov a).1 e he hc
    obtain ⟨i, hi, hie⟩ := exists_currentType (heq ▸ (hinv.size_ne e he).2)
    exact ⟨i, hi, hie.trans heq.symm⟩
  refine ⟨fun e he => (hinv.size_ne e he).1, hinv.apart, fun a => ⟨?_, ?_⟩,
    fun a e he hc => ⟨?_, fun o ho hoc => ?_⟩⟩
  · rintro ⟨o, ho, hoc⟩
    obtain ⟨i, hi, rfl⟩ := exists_entryAt ho
    have hle : (entryAt biosmap i).type ≤ currentType biosmap (covering biosmap a) :=
      le_currentType (mem_covering.mpr ⟨hi, hoc⟩)
    have hpos := hb.type_pos _ ho
    exact ((hcov a).2.2 (by omega)).resolve_right fun h => h.1 hzero
  · rintro ⟨e, he, hc⟩
    obtain ⟨i, hi, -⟩ := htype he hc
    exact ⟨_, entryAt_mem (mem_covering.mp hi).1, (mem_covering.mp hi).2⟩
  · obtain ⟨i, hi, heq⟩ := htype he hc
    exact ⟨_, entryAt_mem (mem_covering.mp hi).1, (mem_covering.mp hi).2, heq⟩
  · obtain ⟨i, hi, rfl⟩ := exists_entryAt ho
    rw [(hcov a).1 e he hc]
    exact le_currentType (mem_covering.mpr ⟨hi, hoc⟩)

end LinuxKernel.E820
