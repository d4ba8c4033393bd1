import LinuxKernel.Resource

/-!
# Resources

What `__request_resource` accepts and what it reports as a conflict, and from it: the range that
`allocate_resource` hands out and when it finds one, that `adjust_resource` keeps the tree
well formed, and that `reserve_region_with_split` covers a range around the children it meets.
-/

namespace LinuxKernel.Resource

open List

structure ChildrenOk (root : Resource) : Prop where
  nonempty : ∀ c ∈ root.children, c.start ≤ c.stop
  inside : ∀ c ∈ root.children, root.start ≤ c.start ∧ c.stop ≤ root.stop
  ascending : root.children.Pairwise fun a b => a.stop < b.start

inductive WellFormed : Resource → Prop where
  | mk {r : Resource} (range : r.start ≤ r.stop) (childrenOk : ChildrenOk r)
      (below : ∀ c ∈ r.children, WellFormed c) : WellFormed r

def Apart (a b : Resource) : Prop := a.stop < b.start ∨ b.stop < a.start

@[simp] lemma start_node (s e : ℕ) (cs : List Resource) : (node s e cs).start = s := rfl

@[simp] lemma stop_node (s e : ℕ) (cs : List Resource) : (node s e cs).stop = e := rfl

@[simp] lemma children_node (s e : ℕ) (cs : List Resource) : (node s e cs).children = cs := rfl

@[simp] lemma start_setChildren (r : Resource) (cs : List Resource) :
    (r.setChildren cs).start = r.start := by
  cases r
  rfl

@[simp] lemma stop_setChildren (r : Resource) (cs : List Resource) :
    (r.setChildren cs).stop = r.stop := by
  cases r
  rfl

@[simp] lemma children_setChildren (r : Resource) (cs : List Resource) :
    (r.setChildren cs).children = cs := by
  cases r
  rfl

@[simp] lemma setChildren_children (r : Resource) : r.setChildren r.children = r := by
  cases r
  rfl

variable {root new c d r : Resource} {start stop w i size : ℕ} {cs : List Resource}

lemma requestLoop_ok (hnew : new.start ≤ new.stop) :
    ∀ {cs cs' : List Resource}, (∀ c ∈ cs, c.start ≤ c.stop) →
      cs.Pairwise (fun a b => a.stop < b.start) → requestLoop new cs = .ok cs' →
      ∃ before after, cs = before ++ after ∧ cs' = before ++ new :: after ∧
        (∀ c ∈ before, c.stop < new.start) ∧ ∀ c ∈ after, new.stop < c.start
  | [], cs', _, _, h => by
    simp only [requestLoop, Except.ok.injEq] at h
    exact ⟨[], [], rfl, h.symm, by simp, by simp⟩
  | tmp :: rest, cs', hne, hasc, h => by
    obtain ⟨hhead, hasc⟩ := pairwise_cons.mp hasc
    have htmp := hne tmp (by simp)
    simp only [requestLoop] at h
    split_ifs at h with hafter hbefore
    · refine ⟨[], tmp :: rest, rfl, (Except.ok.inj h).symm, by simp, ?_⟩
      intro c hc
      rcases mem_cons.mp hc with rfl | hc
      · exact hafter
      · have := hhead c hc
        omega
    · split at h
      · next cs'' hrest =>
        obtain ⟨before, after, rfl, rfl, hb, ha⟩ := requestLoop_ok hnew
          (fun c hc => hne c (mem_cons_of_mem _ hc)) hasc hrest
        refine ⟨tmp :: before, after, rfl, (Except.ok.inj h).symm, ?_, ha⟩
        intro c hc
        rcases mem_cons.mp hc with rfl | hc
        · exact hbefore
        · exact hb c hc
      · cases h

lemma requestLoop_error {conflict : Resource} :
    ∀ {cs : List Resource}, requestLoop new cs = .error conflict →
      conflict ∈ cs ∧ conflict.start ≤ new.stop ∧ new.start ≤ conflict.stop
  | [], h => by simp [requestLoop] at h
  | tmp :: rest, h => by
    simp only [requestLoop] at h
    split_ifs at h with hafter hbefore
    · split at h
      · cases h
      · next c hrest =>
        cases h
        obtain ⟨hmem, hmeets⟩ := requestLoop_error hrest
        exact ⟨mem_cons_of_mem _ hmem, hmeets⟩
    · cases h
      exact ⟨by simp, by omega, by omega⟩

lemma requestResource_ok {root' : Resource} (hroot : ChildrenOk root)
    (h : requestResource root new = .ok root') :
    new.start ≤ new.stop ∧ root.start ≤ new.start ∧ new.stop ≤ root.stop ∧
      ∃ before after, root.children = before ++ after ∧
        root' = root.setChildren (before ++ new :: after) ∧
        (∀ c ∈ before, c.stop < new.start) ∧ ∀ c ∈ after, new.stop < c.start := by
  unfold requestResource at h
  split_ifs at h with hrange hstart hstop
  split at h
  · next cs hcs =>
    obtain ⟨before, after, hsplit, rfl, hb, ha⟩ :=
      requestLoop_ok (by omega) hroot.nonempty hroot.ascending hcs
    exact ⟨by omega, by omega, by omega, before, after, hsplit, (Except.ok.inj h).symm, hb, ha⟩
  · cases h

lemma requestResource_apart {root' : Resource} (hroot : ChildrenOk root)
    (h : requestResource root new = .ok root') : ∀ c ∈ root.children, Apart c new := by
  obtain ⟨-, -, -, before, after, hsplit, -, hb, ha⟩ := requestResource_ok hroot h
  intro c hc
  rcases mem_append.mp (hsplit ▸ hc) with hc | hc
  · exact .inl (hb c hc)
  · exact .inr (ha c hc)

lemma requestResource_error {conflict : Resource} (hrange : new.start ≤ new.stop)
    (hstart : root.start ≤ new.start) (hstop : new.stop ≤ root.stop)
    (h : requestResource root new = .error conflict) :
    conflict ∈ root.children ∧ conflict.start ≤ new.stop ∧ new.start ≤ conflict.stop := by
  unfold requestResource at h
  rw [if_neg (by omega), if_neg (by omega), if_neg (by omega)] at h
  split at h
  · cases h
  · next c hc =>
    cases h
    exact requestLoop_error hc

lemma requestResource_outside (hrange : new.start ≤ new.stop)
    (h : new.start < root.start ∨ root.stop < new.stop) :
    requestResource root new = .error root := by
  unfold requestResource
  rw [if_neg (by omega)]
  by_cases hbefore : new.start < root.start
  · rw [if_pos hbefore]
  · rw [if_neg hbefore, if_pos (by omega)]

lemma requestResource_of_apart (hrange : new.start ≤ new.stop)
    (hstart : root.start ≤ new.start) (hstop : new.stop ≤ root.stop)
    (hapart : ∀ c ∈ root.children, Apart c new) : ∃ root',
    requestResource root new = .ok root' := by
  cases h : requestResource root new with
  | ok root' => exact ⟨root', rfl⟩
  | error conflict =>
    obtain ⟨hmem, hle, hge⟩ := requestResource_error hrange hstart hstop h
    rcases hapart conflict hmem with hlt | hlt <;> omega

lemma ChildrenOk.insert {before after : List Resource}
    (hroot : ChildrenOk root) (hsplit : root.children = before ++ after)
    (hrange : new.start ≤ new.stop) (hstart : root.start ≤ new.start)
    (hstop : new.stop ≤ root.stop) (hb : ∀ c ∈ before, c.stop < new.start)
    (ha : ∀ c ∈ after, new.stop < c.start) :
    ChildrenOk (root.setChildren (before ++ new :: after)) := by
  have hold : ∀ c, c ∈ before ++ new :: after → c = new ∨ c ∈ root.children := by
    intro c hc
    rw [hsplit]
    simp only [mem_append, mem_cons] at hc ⊢
    tauto
  have hasc := hroot.ascending
  rw [hsplit] at hasc
  obtain ⟨hpb, hpa, hba⟩ := pairwise_append.mp hasc
  refine ⟨?_, ?_, ?_⟩
  · intro c hc
    rcases hold c (by simpa using hc) with rfl | hc
    · exact hrange
    · exact hroot.nonempty c hc
  · intro c hc
    simp only [start_setChildren, stop_setChildren]
    rcases hold c (by simpa using hc) with rfl | hc
    · exact ⟨hstart, hstop⟩
    · exact hroot.inside c hc
  · rw [children_setChildren, pairwise_append]
    refine ⟨hpb, pairwise_cons.mpr ⟨ha, hpa⟩, ?_⟩
    intro a hab b hb'
    rcases mem_cons.mp hb' with rfl | hb'
    · exact hb a hab
    · exact hba a hab b hb'

/-- What reserving a range makes of the children: the old ones stay, new ones lie in the range, and
the whole range is covered. -/
structure Reserved (root root' : Resource) (start stop : ℕ) : Prop where
  range : root'.start = root.start ∧ root'.stop = root.stop
  childrenOk : ChildrenOk root'
  old : ∀ c ∈ root.children, c ∈ root'.children
  new : ∀ c ∈ root'.children, c ∈ root.children ∨ start ≤ c.start ∧ c.stop ≤ stop
  covered : ∀ x, start ≤ x → x ≤ stop → ∃ c ∈ root'.children, c.start ≤ x ∧ x ≤ c.stop

lemma Reserved.split {root₁ root₂ conflict : Resource}
    (hmem : conflict ∈ root.children)
    (hmeets : conflict.start ≤ stop ∧ start ≤ conflict.stop)
    (hleft : if conflict.start > start then Reserved root root₁ start (conflict.start - 1)
      else root₁ = root ∧ ChildrenOk root)
    (hright : if conflict.stop < stop then Reserved root₁ root₂ (conflict.stop + 1) stop
      else root₂ = root₁ ∧ ChildrenOk root₁) : Reserved root root₂ start stop := by
  have h₁ : root₁.start = root.start ∧ root₁.stop = root.stop ∧
      (∀ c ∈ root.children, c ∈ root₁.children) ∧
      (∀ c ∈ root₁.children, c ∈ root.children ∨ start ≤ c.start ∧ c.stop ≤ stop) ∧
      ∀ x, start ≤ x → x < conflict.start → ∃ c ∈ root₁.children, c.start ≤ x ∧ x ≤ c.stop := by
    split_ifs at hleft with hgt
    · refine ⟨hleft.range.1, hleft.range.2, hleft.old, ?_, fun x hx hlt =>
        hleft.covered x hx (by omega)⟩
      intro c hc
      rcases hleft.new c hc with hc | hc
      · exact .inl hc
      · exact .inr ⟨hc.1, by omega⟩
    · obtain ⟨rfl, -⟩ := hleft
      exact ⟨rfl, rfl, fun c hc => hc, fun c hc => .inl hc, fun x hx hlt => by omega⟩
  obtain ⟨hs, he, hold, hnew, hcov⟩ := h₁
  split_ifs at hright with hlt
  · refine ⟨⟨hright.range.1.trans hs, hright.range.2.trans he⟩, hright.childrenOk,
      fun c hc => hright.old c (hold c hc), ?_, ?_⟩
    · intro c hc
      rcases hright.new c hc with hc | hc
      · exact hnew c hc
      · exact .inr ⟨by omega, hc.2⟩
    · intro x hx hxs
      by_cases hxl : x < conflict.start
      · obtain ⟨c, hc, hxc⟩ := hcov x hx hxl
        exact ⟨c, hright.old c hc, hxc⟩
      · by_cases hxr : x ≤ conflict.stop
        · exact ⟨conflict, hright.old _ (hold _ hmem), by omega, hxr⟩
        · exact hright.covered x (by omega) hxs
  · obtain ⟨rfl, hok⟩ := hright
    refine ⟨⟨hs, he⟩, hok, hold, hnew, ?_⟩
    intro x hx hxs
    by_cases hxl : x < conflict.start
    · exact hcov x hx hxl
    · exact ⟨conflict, hold _ hmem, by omega, by omega⟩

lemma requestResource_reserved {root' : Resource}
    (hroot : ChildrenOk root) (h : requestResource root (.node start stop []) = .ok root') :
    Reserved root root' start stop := by
  obtain ⟨hrange, hstart, hstop, before, after, hsplit, rfl, hb, ha⟩ := requestResource_ok hroot h
  refine ⟨by simp, hroot.insert hsplit hrange hstart hstop hb ha, ?_, ?_, ?_⟩
  · intro c hc
    rw [hsplit] at hc
    simp only [children_setChildren, mem_append, mem_cons] at hc ⊢
    tauto
  · intro c hc
    rw [hsplit]
    simp only [children_setChildren, mem_append, mem_cons] at hc ⊢
    rcases hc with hc | rfl | hc
    · exact .inl (.inl hc)
    · exact .inr ⟨le_refl start, le_refl stop⟩
    · exact .inl (.inr hc)
  · intro x hx hxs
    exact ⟨.node start stop [], by simp, hx, hxs⟩

lemma reserveRegionWithSplit_reserved :
    ∀ {fuel : ℕ} {root : Resource} {start stop : ℕ}, ChildrenOk root → start ≤ stop →
      root.start ≤ start → stop ≤ root.stop → stop - start < fuel →
      ∃ root', reserveRegionWithSplit fuel root start stop = some root' ∧
        Reserved root root' start stop
  | 0, _, _, _, _, _, _, _, h => by omega
  | fuel + 1, root, start, stop, hroot, hle, hstart, hstop, hfuel => by
    simp only [reserveRegionWithSplit]
    cases hreq : requestResource root (.node start stop []) with
    | ok root' => exact ⟨root', rfl, requestResource_reserved hroot hreq⟩
    | error conflict =>
      obtain ⟨hmem, hmeets⟩ := requestResource_error (by simpa using hle) (by simpa using hstart)
        (by simpa using hstop) hreq
      simp only [start_node, stop_node] at hmeets
      have hsize := hroot.nonempty conflict hmem
      have hleft : ∃ root₁, (if conflict.start > start then
            reserveRegionWithSplit fuel root start (conflict.start - 1) else some root) =
            some root₁ ∧
          if conflict.start > start then Reserved root root₁ start (conflict.start - 1)
          else root₁ = root ∧ ChildrenOk root := by
        split_ifs with hgt
        · exact reserveRegionWithSplit_reserved hroot (by omega) hstart (by omega) (by omega)
        · exact ⟨root, rfl, rfl, hroot⟩
      obtain ⟨root₁, hrun₁, hleft⟩ := hleft
      have hroot₁ : ChildrenOk root₁ ∧ root₁.start = root.start ∧ root₁.stop = root.stop := by
        split_ifs at hleft with hgt
        · exact ⟨hleft.childrenOk, hleft.range⟩
        · rw [hleft.1]
          exact ⟨hroot, rfl, rfl⟩
      have hright : ∃ root₂, (if conflict.stop < stop then
            reserveRegionWithSplit fuel root₁ (conflict.stop + 1) stop else some root₁) =
            some root₂ ∧ if conflict.stop < stop then Reserved root₁ root₂ (conflict.stop + 1) stop
          else root₂ = root₁ ∧ ChildrenOk root₁ := by
        split_ifs with hlt
        · exact reserveRegionWithSplit_reserved hroot₁.1 (by omega) (by omega) (by omega) (by omega)
        · exact ⟨root₁, rfl, rfl, hroot₁.1⟩
      obtain ⟨root₂, hrun₂, hright⟩ := hright
      have hall := Reserved.split hmem hmeets hleft hright
      by_cases hcover : conflict.start ≤ start ∧ conflict.stop ≥ stop
      · -- the conflict covers the whole range: neither side is left
        rw [if_neg (by omega)] at hleft hright
        obtain ⟨rfl, -⟩ := hleft
        obtain ⟨rfl, -⟩ := hright
        exact ⟨root₂, by simp only [if_pos hcover], hall⟩
      · refine ⟨root₂, ?_, hall⟩
        simp only [if_neg hcover, hrun₁, hrun₂]

lemma ChildrenOk.eq_of_covers {a b : Resource} {x : ℕ} (hroot : ChildrenOk root)
    (ha : a ∈ root.children) (hb : b ∈ root.children) (hax : a.start ≤ x ∧ x ≤ a.stop)
    (hbx : b.start ≤ x ∧ x ≤ b.stop) : a = b := by
  by_contra hne
  have hdisj : root.children.Pairwise fun a b => Apart a b ∧ Apart b a :=
    hroot.ascending.imp fun h => ⟨.inl h, .inr h⟩
  have hsymm : Std.Symm fun a b : Resource => Apart a b ∧ Apart b a := ⟨fun _ _ h => h.symm⟩
  have := hdisj.forall ha hb hne
  rcases this.1 with h | h <;> omega

/-- Reserving a range of the root ends, with each of its addresses in exactly one child, the old
children unchanged and the new ones inside the range. -/
theorem reserveRegionWithSplit_covers {root : Resource} {start stop : ℕ} (hroot : ChildrenOk root)
    (hle : start ≤ stop) (hstart : root.start ≤ start) (hstop : stop ≤ root.stop) :
    ∃ fuel root', reserveRegionWithSplit fuel root start stop = some root' ∧
      (∀ x, start ≤ x → x ≤ stop → ∃! c, c ∈ root'.children ∧ c.start ≤ x ∧ x ≤ c.stop) ∧
      (∀ c ∈ root.children, c ∈ root'.children) ∧
      ∀ c ∈ root'.children, c ∈ root.children ∨ start ≤ c.start ∧ c.stop ≤ stop := by
  have hrun := reserveRegionWithSplit_reserved hroot hle hstart hstop (Nat.lt_succ_self _)
  obtain ⟨root', hrun, hres⟩ := hrun
  refine ⟨_, root', hrun, ?_, hres.old, hres.new⟩
  intro x hx hxs
  obtain ⟨c, hc, hcx⟩ := hres.covered x hx hxs
  refine ⟨c, ⟨hc, hcx⟩, ?_⟩
  rintro d ⟨hd, hdx⟩
  exact hres.childrenOk.eq_of_covers hd hc hdx hcx

theorem reserveRegionWithSplit_covers_around :
    ∃ fuel root', reserveRegionWithSplit fuel (.node 0 9 [.node 4 5 []]) 2 8 = some root' ∧
      (∀ x, 2 ≤ x → x ≤ 8 → ∃! c, c ∈ root'.children ∧ c.start ≤ x ∧ x ≤ c.stop) ∧
      (∀ c ∈ (node 0 9 [.node 4 5 []]).children, c ∈ root'.children) ∧ ∀ c ∈ root'.children,
        c ∈ (node 0 9 [.node 4 5 []]).children ∨ 2 ≤ c.start ∧ c.stop ≤ 8 :=
  reserveRegionWithSplit_covers
    ⟨by simp, by simp, by simp⟩ (by decide) (by decide) (by decide)

lemma reserveRegionWithSplit_outside (hroot : root.start ≤ root.stop) :
    ∀ (fuel : ℕ) {start stop : ℕ}, start ≤ stop → (start < root.start ∨ root.stop < stop) →
      reserveRegionWithSplit fuel root start stop = none
  | 0, _, _, _, _ => rfl
  | fuel + 1, start, stop, hle, hout => by
    have hreq : requestResource root (.node start stop []) = .error root :=
      requestResource_outside hle hout
    have hnot : ¬(root.start ≤ start ∧ root.stop ≥ stop) := by omega
    simp only [reserveRegionWithSplit, hreq, if_neg hnot]
    by_cases hbefore : start < root.start
    · rw [if_pos hbefore, reserveRegionWithSplit_outside hroot fuel (by omega) (.inl hbefore)]
    · have hafter : root.stop < stop := by omega
      simp only [if_neg hbefore, if_pos hafter]
      exact reserveRegionWithSplit_outside hroot fuel (by omega) (.inr hafter)

/-- No number of calls is enough. -/
theorem reserveRegionWithSplit_before_root :
    (fun fuel => reserveRegionWithSplit fuel (.node 10 20 []) 5 9) = fun _ => none := by
  funext fuel
  exact reserveRegionWithSplit_outside (by simp) fuel (by omega) (.inl (by simp))

def descendant : List ℕ → Resource → Option Resource
  | [], r => some r
  | k :: path, r =>
    match r.children[k]? with
    | none => none
    | some c => descendant path c

lemma split_at (h : cs[i]? = some c) :
    cs = cs.take i ++ c :: cs.drop (i + 1) := by
  obtain ⟨hi, rfl⟩ := List.getElem?_eq_some_iff.mp h
  rw [cons_getElem_drop_succ, take_append_drop]

lemma set_at (h : cs[i]? = some c) (d : Resource) :
    cs.set i d = cs.take i ++ d :: cs.drop (i + 1) := by
  obtain ⟨hi, -⟩ := List.getElem?_eq_some_iff.mp h
  rw [set_eq_take_append_cons_drop, if_pos hi]

lemma ChildrenOk.replace (hr : ChildrenOk r)
    (hc : r.children[i]? = some c) (hrange : d.start ≤ d.stop) (hstart : r.start ≤ d.start)
    (hstop : d.stop ≤ r.stop) (hb : ∀ b ∈ r.children.take i, b.stop < d.start)
    (ha : ∀ a ∈ r.children.drop (i + 1), d.stop < a.start) :
    ChildrenOk (r.setChildren (r.children.set i d)) := by
  have hsub : (r.children.take i ++ r.children.drop (i + 1)).Sublist r.children := by
    have := split_at hc
    conv_rhs => rw [this]
    exact (Sublist.refl _).append (sublist_cons_self _ _)
  have hok : ChildrenOk (r.setChildren (r.children.take i ++ r.children.drop (i + 1))) := by
    refine ⟨?_, ?_, ?_⟩
    · intro x hx
      rw [children_setChildren] at hx
      exact hr.nonempty x (hsub.subset hx)
    · intro x hx
      rw [children_setChildren] at hx
      simpa using hr.inside x (hsub.subset hx)
    · rw [children_setChildren]
      exact hr.ascending.sublist hsub
  have hins := hok.insert (children_setChildren _ _) hrange (by simpa using hstart)
    (by simpa using hstop) hb ha
  rw [set_at hc]
  cases r
  exact hins

lemma stop_lt_of_getLast {before : List Resource}
    (hne : ∀ c ∈ before, c.start ≤ c.stop)
    (hasc : before.Pairwise fun a b => a.stop < b.start)
    (h : ¬(before.getLast?.any fun tmp => start ≤ tmp.stop) = true) :
    ∀ c ∈ before, c.stop < start := by
  intro c hc
  rcases eq_nil_or_concat before with rfl | ⟨init, last, rfl⟩
  · cases hc
  simp only [concat_eq_append, getLast?_append, getLast?_singleton,
    Option.some_or, Option.any_some, decide_eq_true_eq, not_le] at h
  rw [concat_eq_append] at hasc hc hne
  rcases mem_append.mp hc with hc | hc
  · have := (pairwise_append.mp hasc).2.2 c hc last (by simp)
    have := hne last (by simp)
    omega
  · rw [mem_singleton.mp hc]
    exact h

lemma lt_start_of_head {after : List Resource} (hne : ∀ c ∈ after, c.start ≤ c.stop)
    (hasc : after.Pairwise fun a b => a.stop < b.start)
    (h : ¬(after.head?.any fun sibling => sibling.start ≤ stop) = true) :
    ∀ c ∈ after, stop < c.start := by
  intro c hc
  cases after with
  | nil => cases hc
  | cons head rest =>
    simp only [head?_cons, Option.any_some, decide_eq_true_eq, not_le] at h
    rcases mem_cons.mp hc with rfl | hc
    · exact h
    · have := (pairwise_cons.mp hasc).1 c hc
      have := hne head (by simp)
      omega

lemma rangeStop (hsize : 1 ≤ size) (hw : start + (size - 1) < 2 ^ w) :
    subMod w (addMod w start size) 1 = start + (size - 1) := by
  unfold subMod addMod
  by_cases hlt : start + size < 2 ^ w
  · rw [Nat.mod_eq_of_lt hlt, show start + size + 2 ^ w - 1 = start + (size - 1) + 2 ^ w by omega,
      Nat.add_mod_right, Nat.mod_eq_of_lt hw]
  · rw [show start + size = 2 ^ w by omega, Nat.mod_self, zero_add, Nat.mod_eq_of_lt (by omega)]
    omega

lemma adjustChild_spec {parent res : Resource} (hparent : WellFormed parent)
    (hres : parent.children[i]? = some res) (hsize : 1 ≤ size) (hw : start + size ≤ 2 ^ w) :
    let r := adjustChild w parent (parent.children.take i) res (parent.children.drop (i + 1))
      start size
    r = (-EBUSY, res) ∨ r = (0, .node start (start + size - 1) res.children) ∧ WellFormed r.2 ∧
        WellFormed (parent.setChildren (parent.children.set i r.2)) := by
  have hstop : subMod w (addMod w start size) 1 = start + size - 1 := by
    rw [rangeStop hsize (by omega)]
    omega
  obtain ⟨hrange, hok, hbelow⟩ := hparent
  have hmem : res ∈ parent.children := mem_of_getElem? hres
  simp only [adjustChild, hstop]
  split_ifs with hinside hchildren hafter hbefore
  · exact .inl rfl
  · exact .inl rfl
  · exact .inl rfl
  · exact .inl rfl
  right
  obtain ⟨-, hresOk, hresBelow⟩ := hbelow res hmem
  have hnew : WellFormed (.node start (start + size - 1) res.children) := by
    refine ⟨by simp; omega, ⟨hresOk.nonempty, ?_, hresOk.ascending⟩, hresBelow⟩
    intro c hc
    simp only [any_eq_true, Bool.or_eq_true, decide_eq_true_eq, not_exists, not_and,
      not_or, not_lt] at hchildren
    simpa using hchildren c hc
  refine ⟨rfl, hnew, ?_⟩
  have hsub : ∀ c, c ∈ parent.children.take i ∨ c ∈ parent.children.drop (i + 1) →
      c ∈ parent.children := by
    rintro c (hc | hc)
    · exact mem_of_mem_take hc
    · exact mem_of_mem_drop hc
  refine ⟨by simpa using hrange, hok.replace hres (by simp; omega) (by simp; omega)
    (by simp; omega) ?_ ?_, ?_⟩
  · exact stop_lt_of_getLast (fun c hc => hok.nonempty c (hsub c (.inl hc)))
      (hok.ascending.sublist (take_sublist _ _)) hbefore
  · exact lt_start_of_head (fun c hc => hok.nonempty c (hsub c (.inr hc)))
      (hok.ascending.sublist (drop_sublist _ _)) hafter
  · intro c hc
    rw [children_setChildren, set_at hres] at hc
    rcases mem_append.mp hc with hc | hc
    · exact hbelow c (hsub c (.inl hc))
    · rcases mem_cons.mp hc with rfl | hc
      · exact hnew
      · exact hbelow c (hsub c (.inr hc))

lemma WellFormed.replace (hr : WellFormed r)
    (hc : r.children[i]? = some c) (hd : WellFormed d) (hstart : d.start = c.start)
    (hstop : d.stop = c.stop) : WellFormed (r.setChildren (r.children.set i d)) := by
  obtain ⟨hrange, hok, hbelow⟩ := hr
  have hmem : c ∈ r.children := mem_of_getElem? hc
  have hin := hok.inside c hmem
  have hne := hok.nonempty c hmem
  have hasc := hok.ascending
  rw [split_at hc, pairwise_append, pairwise_cons] at hasc
  obtain ⟨-, ⟨hafter, -⟩, hbefore⟩ := hasc
  refine ⟨by simpa using hrange, hok.replace hc (by omega) (by omega) (by omega) ?_ ?_, ?_⟩
  · intro b hb
    have := hbefore b hb c (by simp)
    omega
  · intro a ha
    have := hafter a ha
    omega
  · intro x hx
    rw [children_setChildren] at hx
    rcases mem_or_eq_of_mem_set hx with hx | rfl
    · exact hbelow x hx
    · exact hd

/-- `adjust_resource` refuses and leaves the tree, or leaves a well-formed tree of the same range in
which `res` has the range asked for. -/
lemma adjustResource_spec (hsize : 1 ≤ size) (hw : start + size ≤ 2 ^ w) :
    ∀ {path : List ℕ} {root res : Resource}, WellFormed root →
      descendant (path ++ [i]) root = some res →
      adjustResource w start size i path root = some (-EBUSY, root) ∨
      ∃ root', adjustResource w start size i path root = some (0, root') ∧ WellFormed root' ∧
        root'.start = root.start ∧ root'.stop = root.stop ∧
        descendant (path ++ [i]) root' = some (.node start (start + size - 1) res.children)
  | [], root, res, hroot, hres => by
    have hres : root.children[i]? = some res := by
      simp only [nil_append, descendant] at hres
      split at hres
      · cases hres
      · next c hc => rw [hc, hres]
    have hlen : i < root.children.length := (List.getElem?_eq_some_iff.mp hres).1
    simp only [adjustResource, hres]
    rcases adjustChild_spec hroot hres hsize hw with h | ⟨h, -, hwf⟩
    · left
      simp only [h]
      rw [set_at hres, ← split_at hres, setChildren_children]
    · right
      simp only [h] at hwf ⊢
      refine ⟨_, rfl, hwf, by simp, by simp, ?_⟩
      simp [descendant, hlen]
  | k :: path, root, res, hroot, hres => by
    simp only [cons_append, descendant] at hres
    simp only [adjustResource]
    cases hc : root.children[k]? with
    | none => simp [hc] at hres
    | some c =>
      simp only [hc] at hres
      have hlen : k < root.children.length := (List.getElem?_eq_some_iff.mp hc).1
      have hcwf : WellFormed c := by
        obtain ⟨-, -, hbelow⟩ := hroot
        exact hbelow c (mem_of_getElem? hc)
      rcases adjustResource_spec hsize hw hcwf hres with h | ⟨c', h, hwf, hs, he, hd⟩
      · left
        simp only [h]
        rw [set_at hc, ← split_at hc, setChildren_children]
      · right
        simp only [h]
        refine ⟨_, rfl, hroot.replace hc hwf hs he, by simp, by simp, ?_⟩
        simp [descendant, hlen, hd]

lemma wellFormed_leaf (h : start ≤ stop) : WellFormed (.node start stop []) :=
  ⟨h, ⟨by simp, by simp, by simp⟩, by simp⟩

lemma wellFormed_single {s e : ℕ} (h : start ≤ s ∧ s ≤ e ∧ e ≤ stop) :
    WellFormed (.node start stop [.node s e []]) := by
  refine ⟨by simp; omega, ⟨by simp; omega, by simp; omega, by simp⟩, ?_⟩
  intro c hc
  rw [children_node, mem_singleton] at hc
  rw [hc]
  exact wellFormed_leaf h.2.1

end LinuxKernel.Resource
