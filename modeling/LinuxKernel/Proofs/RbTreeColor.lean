import LinuxKernel.Proofs.RbTree

/-!
# The rebalancing loops of a red-black tree

The rotations change the children of parents on the way up and of their siblings only, and keep the
order of the nodes. In a red-black tree no NULL pointer is dereferenced.
-/

open LinuxKernel.Rb.Tree

namespace LinuxKernel.Rb

variable {α β : Type*} {func : Func α β}

/-- What the loop of `rb_insert_color` leaves: a frame below `n` has a correct sibling. -/
structure InsertOk (func : Func α β) (n : Frame α β) (path low : List (Frame α β))
    (n' : Frame α β) (rest : List (Frame α β)) : Prop where
  v : n'.v = n.v
  dir : n'.dir = n.dir
  order : SameOrder (low ++ n' :: rest) (n :: path)
  low : low = [] ∧ n' = n ∨ ∃ f, low = [f] ∧ Correct func f.sibling
  kids : ∀ f ∈ n' :: rest, KidsOk func f.sibling

lemma InsertOk.all {n n' : Frame α β} {path low rest : List (Frame α β)}
    (h : InsertOk func n path low n' rest) : ∀ f ∈ low ++ n' :: rest, KidsOk func f.sibling := by
  intro f hf
  rcases List.mem_append.mp hf with hf | hf
  · rcases h.low with ⟨rfl, -⟩ | ⟨g, rfl, hg⟩
    · cases hf
    · rw [List.mem_singleton.mp hf]
      exact hg.kidsOk
  · exact h.kids f hf

lemma InsertOk.refl {n : Frame α β} {path : List (Frame α β)}
    (h : ∀ f ∈ n :: path, Correct func f.sibling) : InsertOk func n path [] n path :=
  ⟨rfl, rfl, SameOrder.refl _, .inl ⟨rfl, rfl⟩, fun f hf => (h f hf).kidsOk⟩

lemma insertUp_spec : ∀ {n : Frame α β} {path low rest : List (Frame α β)} {n' : Frame α β},
    (∀ f ∈ n :: path, Correct func f.sibling) → insertUp n path = some (low, n', rest) →
      InsertOk func n path low n' rest
  | n, [], low, rest, n', hs, h => by
    simp only [insertUp, Option.some.injEq, Prod.mk.injEq] at h
    obtain ⟨rfl, rfl, rfl⟩ := h
    exact InsertOk.refl hs
  | n, [p], low, rest, n', hs, h => by
    simp only [insertUp] at h
    split_ifs at h
    simp only [Option.some.injEq, Prod.mk.injEq] at h
    obtain ⟨rfl, rfl, rfl⟩ := h
    exact InsertOk.refl hs
  | n, p :: g :: path, low, rest, n', hs, h => by
    have hn := hs n (by simp)
    have hp := hs p (by simp)
    have hg := hs g (by simp)
    have hpath : ∀ f ∈ path, Correct func f.sibling := fun f hf => hs f (by simp [hf])
    simp only [insertUp] at h
    split_ifs at h with hred huncle hdir hside
    · -- the uncle is red: the loop goes on at `gparent`
      rw [Option.map_eq_some_iff] at h
      obtain ⟨⟨low', g', rest'⟩, hup, h⟩ := h
      simp only [Prod.mk.injEq] at h
      obtain ⟨rfl, rfl, rfl⟩ := h
      have hok := insertUp_spec (by
        intro f hf
        rcases List.mem_cons.mp hf with rfl | hf
        · exact hg.paint .black
        · exact hpath f hf) hup
      refine ⟨rfl, rfl, ?_, .inl ⟨rfl, rfl⟩, ?_⟩
      · have horder : SameOrder (low' ++ g' :: rest') (g :: path) := by
          intro t
          rw [hok.order t]
          refine toList_plugAll_congr path ?_
          simp only [Frame.plug, toList_join, toList_paint]
        exact (horder.cons (toList_plug_paint .black p)).cons fun _ => rfl
      · intro f hf
        simp only [List.mem_cons, List.cons_append] at hf
        rcases hf with rfl | rfl | hf
        · exact hn.kidsOk
        · exact hp.kidsOk
        · exact hok.all f hf
    · simp only [Option.some.injEq, Prod.mk.injEq] at h
      obtain ⟨rfl, rfl, rfl⟩ := h
      refine ⟨rfl, rfl, fun t => ?_, .inl ⟨rfl, rfl⟩, ?_⟩
      · refine toList_plugAll_congr path ?_
        cases hgd : g.dir <;> simp [Frame.plug, toList_join, hdir, hgd]
      intro f hf
      simp only [List.mem_cons] at hf
      rcases hf with rfl | rfl | hf
      · exact hn.kidsOk
      · exact kidsOk_join hp hg
      · exact (hpath f hf).kidsOk
    · simp only [Option.some.injEq, Prod.mk.injEq] at h
      obtain ⟨rfl, rfl, rfl⟩ := h
      refine ⟨rfl, rfl, fun t => ?_, .inr ⟨p, rfl, hp⟩, ?_⟩
      · refine toList_plugAll_congr path ?_
        cases hgd : g.dir <;> cases hpd : p.dir <;> rw [hgd] at hside hdir <;>
          simp_all [Frame.plug, toList_join]
      · intro f hf
        rcases List.mem_cons.mp hf with rfl | hf
        · exact kidsOk_join hn hg
        · exact (hpath f hf).kidsOk
    · simp only [Option.some.injEq, Prod.mk.injEq] at h
      obtain ⟨rfl, rfl, rfl⟩ := h
      refine ⟨rfl, rfl, fun t => ?_, .inr ⟨g.paint .red, rfl, hg⟩, ?_⟩
      · refine toList_plugAll_congr path ?_
        cases hgd : g.dir <;> cases hpd : p.dir <;> cases hnd : n.dir <;>
          rw [hgd] at hside hdir <;> simp_all [Frame.plug, Frame.paint, toList_join]
      · intro f hf
        rcases List.mem_cons.mp hf with rfl | hf
        · exact kidsOk_join hp hn
        · exact (hpath f hf).kidsOk
    · simp only [Option.some.injEq, Prod.mk.injEq] at h
      obtain ⟨rfl, rfl, rfl⟩ := h
      exact InsertOk.refl hs

lemma insertUp_isSome : ∀ (n : Frame α β) {path : List (Frame α β)},
    (∀ f, path.getLast? = some f → f.color = .black) → (insertUp n path).isSome
  | n, [], _ => rfl
  | n, [p], h => by
    rw [insertUp, if_neg (by rw [h p rfl]; decide)]
    rfl
  | n, p :: g :: path, h => by
    simp only [insertUp]
    split_ifs
    · rw [Option.isSome_map]
      refine insertUp_isSome _ fun f hf => h f ?_
      cases path with
      | nil => cases hf
      | cons q path => exact hf
    all_goals rfl

lemma isRed_plugAll : ∀ {path : List (Frame α β)} {t : Tree α β} {f : Frame α β},
    path.getLast? = some f → (plugAll path t).isRed = decide (f.color = .red)
  | [p], t, f, h => by
    simp only [List.getLast?_singleton, Option.some.injEq] at h
    subst h
    rw [plugAll, plugAll]
    cases hd : p.dir <;> cases hc : p.color <;> simp [Frame.plug, join, hd, hc, isRed]
  | p :: q :: path, t, f, h => by
    rw [List.getLast?_cons_cons] at h
    rw [plugAll]
    exact isRed_plugAll h

section

variable {path : List (Frame α β)}

/-- What the loop of `__rb_erase_color` leaves: the first parent is the same node, beside a correct
subtree. -/
structure EraseOk (func : Func α β) (path path' : List (Frame α β)) : Prop where
  order : SameOrder path' path
  head : (path'.map (·.v)).head? = (path.map (·.v)).head?
  first : ∀ s, (path'.map (·.sibling)).head? = some s → Correct func s
  kids : ∀ s ∈ path'.map (·.sibling), KidsOk func s

lemma EraseOk.refl (h : ∀ f ∈ path, Correct func f.sibling) :
    EraseOk func path path := by
  have hall : ∀ s ∈ path.map (·.sibling), Correct func s := by
    intro s hs
    obtain ⟨f, hf, rfl⟩ := List.mem_map.mp hs
    exact h f hf
  exact ⟨SameOrder.refl _, rfl, fun s hs => hall s (List.mem_of_head? hs),
    fun s hs => (hall s hs).kidsOk⟩

lemma EraseOk.blackenLast {path' : List (Frame α β)} (h : EraseOk func path path') :
    EraseOk func path (blackenLast path') := by
  have hv := blackenLast_map (k := fun f : Frame α β => f.v) (fun _ _ => rfl) path'
  have hs := blackenLast_map (k := fun f : Frame α β => f.sibling) (fun _ _ => rfl) path'
  refine ⟨fun t => (blackenLast_sameOrder path' t).trans (h.order t), ?_, ?_, ?_⟩
  · rw [hv]
    exact h.head
  · rw [hs]
    exact h.first
  · rw [hs]
    exact h.kids

lemma EraseOk.cons {p p' : Frame α β} {rest rest' : List (Frame α β)} (hv : p'.v = p.v)
    (hs : Correct func p'.sibling) (horder : SameOrder (p' :: rest') (p :: rest))
    (hrest : ∀ f ∈ rest', KidsOk func f.sibling) : EraseOk func (p :: rest) (p' :: rest') := by
  refine ⟨horder, by simp [hv], ?_, ?_⟩
  · rintro s ⟨⟩
    exact hs
  intro s hmem
  simp only [List.map_cons, List.mem_cons, List.mem_map] at hmem
  rcases hmem with rfl | ⟨f, hf, rfl⟩
  · exact hs.kidsOk
  · exact hrest f hf

/-- What becomes of the parent of a black `other`. -/
def FixedOk (func : Func α β) (p : Frame α β) : Fixed α β → Prop
  | .recolor p' => p'.v = p.v ∧ Correct func p'.sibling ∧
      ∀ t : Tree α β, (p'.plug t).toList = (p.plug t).toList
  | .rotate p' o => p'.v = p.v ∧ Correct func p'.sibling ∧ KidsOk func o.sibling ∧
      ∀ t : Tree α β, (o.plug (p'.plug t)).toList = (p.plug t).toList

lemma eraseOther_spec {p : Frame α β} {r : Fixed α β} (hs : Correct func p.sibling)
    (h : eraseOther p = some r) : FixedOk func p r := by
  unfold eraseOther at h
  split at h
  · cases h
  next c l v a r hsib =>
  rw [hsib] at hs
  have hother := hs.child p.dir
  have hfar := hs.child p.dir.other
  simp only at h
  split_ifs at h with hboth hnear
  · cases h
    refine ⟨rfl, hs.paint .red, fun t => ?_⟩
    simp only [Frame.plug, hsib, toList_join, toList_paint]
  · split at h
    · cases h
    · next nc nl nv na nr hn =>
      cases h
      rw [hn] at hother
      refine ⟨rfl, ?_, ?_, fun t => ?_⟩
      · rw [hn]
        exact hother.child p.dir
      · rw [hn]
        exact kidsOk_join (hother.child p.dir.other) hfar
      · cases hd : p.dir <;> simp only [hd, Tree.child] at hn <;>
          simp [Frame.plug, hsib, hn, hd, toList_join, Tree.child, Dir.other, toList]
  · cases h
    refine ⟨rfl, hother, (hfar.paint .black).kidsOk, fun t => ?_⟩
    cases hd : p.dir <;>
      simp [Frame.plug, hsib, hd, toList_join, toList_paint, Tree.child, Dir.other, toList]

lemma eraseUp_spec : ∀ {path path' : List (Frame α β)},
    (∀ f ∈ path, Correct func f.sibling) → eraseUp path = some path' → EraseOk func path path'
  | [], path', hs, h => by
    simp only [eraseUp, Option.some.injEq] at h
    subst h
    exact EraseOk.refl hs
  | p :: rest, path', hs, h => by
    have hp := hs p (by simp)
    have hrest : ∀ f ∈ rest, Correct func f.sibling := fun f hf => hs f (by simp [hf])
    simp only [eraseUp] at h
    split at h
    · cases h
    · next l v a r hsib =>
      -- the red sibling is the frame `top` above the parent
      rw [hsib] at hp
      have hnear := hp.child p.dir
      have hfar := hp.child p.dir.other
      have hturn : ∀ t : Tree α β,
          ((⟨p.dir, .black, v, a, (node .red l v a r).child p.dir.other⟩ : Frame α β).plug
            (({ p with color := .red, sibling := (node .red l v a r).child p.dir } :
              Frame α β).plug t)).toList = (p.plug t).toList := by
        intro t
        cases hd : p.dir <;>
          simp [Frame.plug, hsib, hd, toList_join, Tree.child, Dir.other, toList]
      have htop : ∀ f ∈ (⟨p.dir, .black, v, a, (node .red l v a r).child p.dir.other⟩ :
          Frame α β) :: rest, KidsOk func f.sibling := by
        intro f hf
        rcases List.mem_cons.mp hf with rfl | hf
        · exact hfar.kidsOk
        · exact (hrest f hf).kidsOk
      split at h
      · cases h
      · next p' hfix =>
        obtain ⟨hv, hs', horder⟩ := eraseOther_spec hnear hfix
        cases h
        refine EraseOk.cons hv hs' (fun t => toList_plugAll_congr rest ?_) htop
        refine Eq.trans ?_ (hturn t)
        refine toList_plugAll_congr [_] ?_
        rw [toList_plug_paint, horder]
      · next p' o hfix =>
        obtain ⟨hv, hs', ho, horder⟩ := eraseOther_spec hnear hfix
        cases h
        refine EraseOk.blackenLast (EraseOk.cons hv hs' (fun t => toList_plugAll_congr rest ?_) ?_)
        · refine Eq.trans ?_ (hturn t)
          exact toList_plugAll_congr [_] (horder t)
        · intro f hf
          rcases List.mem_cons.mp hf with rfl | hf
          · exact ho
          · exact htop f hf
    · split at h
      · cases h
      · next p' hfix =>
        obtain ⟨hv, hs', horder⟩ := eraseOther_spec hp hfix
        split_ifs at h with hred
        · cases h
          refine EraseOk.cons hv hs' ((SameOrder.refl rest).cons fun t => ?_)
            fun f hf => (hrest f hf).kidsOk
          rw [toList_plug_paint, horder]
        · rw [Option.map_eq_some_iff] at h
          obtain ⟨rest', hup, rfl⟩ := h
          have hok := eraseUp_spec hrest hup
          refine EraseOk.cons hv hs' (hok.order.cons horder) fun f hf => ?_
          exact hok.kids _ (List.mem_map_of_mem hf)
      · next p' o hfix =>
        obtain ⟨hv, hs', ho, horder⟩ := eraseOther_spec hp hfix
        cases h
        refine EraseOk.blackenLast (EraseOk.cons hv hs'
          (fun t => toList_plugAll_congr rest (horder t)) ?_)
        intro f hf
        rcases List.mem_cons.mp hf with rfl | hf
        · exact ho
        · exact (hrest f hf).kidsOk

lemma eraseChild_spec {color : Color} {child t : Tree α β}
    (hc : Correct func child) (hp : ∀ f ∈ path, Correct func f.sibling)
    (h : eraseChild color child path = some t) :
    ∃ child' path', t = plugAll path' child' ∧ child'.toList = child.toList ∧
      child'.v? = child.v? ∧ Correct func child' ∧ EraseOk func path path' := by
  unfold eraseChild eraseColor at h
  split_ifs at h with hblack hred
  · cases h
    refine ⟨child.paint .black, path, rfl, toList_paint _ _, ?_, hc.paint _, EraseOk.refl hp⟩
    cases child <;> rfl
  · rw [Option.map_eq_some_iff] at h
    obtain ⟨path', hup, rfl⟩ := h
    exact ⟨child, path', rfl, rfl, rfl, hc, eraseUp_spec hp hup⟩
  · cases h
    exact ⟨child, path, rfl, rfl, rfl, hc, EraseOk.refl hp⟩

/-- The node that `rb_augment_erase_begin` finds, in terms of what takes the place of the node that
goes: that child, or else its parent. -/
def deepest (child : Tree α β) (path : List (Frame α β)) : Option α :=
  match child.v? with
  | some x => some x
  | none => (path.map (·.v)).head?

variable [DecidableEq α]

lemma rbAugmentEraseEnd_correct {child : Tree α β} (hc : Correct func child)
    (hfirst : ∀ s, (path.map (·.sibling)).head? = some s → Correct func s)
    (hkids : ∀ s ∈ path.map (·.sibling), KidsOk func s)
    (hnd : (plugAll path child).toList.Nodup) :
    ∃ t, rbAugmentEraseEnd func (deepest child path) (plugAll path child) = some t ∧
      Correct func t ∧ t.toList = (plugAll path child).toList := by
  have hkids' : ∀ f ∈ path, KidsOk func f.sibling := fun f hf => hkids _ (List.mem_map_of_mem hf)
  cases child with
  | node c l x a r =>
    refine ⟨_, ?_, augmentPath_correct hc.kidsOk hkids', augmentPath_toList _ _⟩
    simp only [rbAugmentEraseEnd, deepest, v?, locate_plugAll hnd, Option.map_some]
  | nil =>
    cases path with
    | nil => exact ⟨nil, rfl, trivial, rfl⟩
    | cons p rest =>
      have hplug : ∃ l r, p.plug nil = node p.color l p.v p.agg r := by
        cases hd : p.dir <;> simp [Frame.plug, join, hd]
      obtain ⟨l, r, hplug⟩ := hplug
      have hloc : locate p.v (plugAll (p :: rest) nil) [] = some (p.plug nil, rest) := by
        rw [plugAll, hplug] at hnd ⊢
        exact locate_plugAll hnd
      have hp : KidsOk func (p.plug nil) := kidsOk_join trivial (hfirst _ rfl)
      refine ⟨augmentPath func (p.plug nil) rest, ?_, augmentPath_correct hp fun f hf =>
        hkids' f (List.mem_cons_of_mem _ hf), augmentPath_toList _ _⟩
      simp only [rbAugmentEraseEnd, deepest, v?, List.map_cons, List.head?_cons, hloc,
        Option.map_some]

end

/-- A red-black tree of this black height: no red node has a red child, and every way down passes
as many black nodes. -/
def BlackHeight : Tree α β → ℕ → Prop
  | .nil, h => h = 0
  | .node .red l _ _ r, h => BlackHeight l h ∧ BlackHeight r h ∧ l.isRed = false ∧ r.isRed = false
  | .node .black l _ _ r, h => ∃ k, h = k + 1 ∧ BlackHeight l k ∧ BlackHeight r k

def RedBlack (t : Tree α β) : Prop := t.isRed = false ∧ ∃ h, BlackHeight t h

/-- Above a subtree of black height `h`, every sibling has the height of the subtree beside it. -/
def PathHeight : List (Frame α β) → ℕ → Prop
  | [], _ => True
  | f :: path, h => BlackHeight f.sibling h ∧
      PathHeight path (if f.color = .black then h + 1 else h)

lemma BlackHeight.plug {f : Frame α β} {t : Tree α β} {h : ℕ} (hb : BlackHeight (f.plug t) h) :
    ∃ k, BlackHeight t k ∧ BlackHeight f.sibling k ∧ h = if f.color = .black then k + 1 else k := by
  cases hd : f.dir <;> cases hc : f.color <;>
    simp only [Frame.plug, join, hd, hc, BlackHeight] at hb ⊢
  · exact ⟨h, hb.1, hb.2.1, by simp⟩
  · obtain ⟨k, rfl, ht, hs⟩ := hb
    exact ⟨k, ht, hs, by simp⟩
  · exact ⟨h, hb.2.1, hb.1, by simp⟩
  · obtain ⟨k, rfl, hs, ht⟩ := hb
    exact ⟨k, ht, hs, by simp⟩

lemma BlackHeight.pathHeight {q : List (Frame α β)} : ∀ {p : List (Frame α β)} {t : Tree α β}
    {h : ℕ}, BlackHeight (plugAll p t) h → PathHeight q h →
      ∃ k, BlackHeight t k ∧ PathHeight (p ++ q) k
  | [], t, h, hb, hq => ⟨h, hb, hq⟩
  | f :: p, t, h, hb, hq => by
    have hb : BlackHeight (plugAll p (f.plug t)) h := hb
    obtain ⟨k, hk, hpath⟩ := BlackHeight.pathHeight hb hq
    obtain ⟨j, hj, hs, rfl⟩ := hk.plug
    exact ⟨j, hj, hs, hpath⟩

lemma BlackHeight.ne_nil {t : Tree α β} {h : ℕ} (hb : BlackHeight t (h + 1)) : t ≠ nil := by
  rintro rfl
  cases hb

lemma eraseOther_isSome {p : Frame α β} (h : p.sibling ≠ nil) : (eraseOther p).isSome := by
  unfold eraseOther
  split
  · next hnil => exact absurd hnil h
  simp only
  split_ifs with hboth hnear
  · rfl
  · split
    · next hn =>
      rw [hn] at hboth
      exact absurd ⟨rfl, hnear⟩ hboth
    · rfl
  · rfl

lemma eraseUp_isSome : ∀ {path : List (Frame α β)} {h : ℕ}, PathHeight path (h + 1) →
    (eraseUp path).isSome
  | [], _, _ => rfl
  | p :: rest, h, hp => by
    obtain ⟨hs, hrest⟩ := hp
    simp only [eraseUp]
    split
    · next hsib =>
      rw [hsib] at hs
      cases hs
    · next l v a r hsib =>
      rw [hsib] at hs
      have hnear : (node .red l v a r).child p.dir ≠ nil := by
        cases p.dir with
        | left => exact hs.1.ne_nil
        | right => exact hs.2.1.ne_nil
      have hsome : (eraseOther { p with
          color := .red, sibling := (node .red l v a r).child p.dir }).isSome :=
        eraseOther_isSome hnear
      split
      · next hfix =>
        rw [hfix] at hsome
        cases hsome
      · rfl
      · rfl
    · next l v a r hsib =>
      have hsome : (eraseOther p).isSome := eraseOther_isSome (by rw [hsib]; simp)
      split
      · next hfix =>
        rw [hfix] at hsome
        cases hsome
      · next p' hfix =>
        split_ifs with hred
        · rfl
        rw [Option.isSome_map]
        have hcolor : p.color = p'.color := by
          simp only [eraseOther, hsib] at hfix
          split_ifs at hfix
          · cases hfix
            rfl
          · split at hfix <;> cases hfix
          · cases hfix
        have hblack : p.color = .black := by
          rw [hcolor]
          cases hc : p'.color with
          | red => exact absurd hc hred
          | black => rfl
        rw [if_pos hblack] at hrest
        exact eraseUp_isSome hrest
      · rfl

lemma eraseChild_isSome {color : Color} {child : Tree α β} {path : List (Frame α β)}
    (h : color = .black → ∃ k, PathHeight path (k + 1)) :
    (eraseChild color child path).isSome := by
  unfold eraseChild eraseColor
  split_ifs with hblack hred
  · rfl
  · obtain ⟨k, hk⟩ := h hblack
    rw [Option.isSome_map]
    exact eraseUp_isSome hk
  · rfl

end LinuxKernel.Rb
