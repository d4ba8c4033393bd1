import LinuxKernel.RbTree

/-!
# Aggregates in augmented red-black trees

A node is mendable when every stale aggregate is its own, that of a parent on the way up or that of
a sibling of one of these: `rb_augment_path` then makes all aggregates correct.
-/

open LinuxKernel.Rb.Tree

namespace LinuxKernel.Rb

variable {α β : Type*}

@[simp] lemma isNil_eq_true {t : Tree α β} : t.isNil = true ↔ t = nil := by
  cases t <;> simp [isNil]

lemma toList_join (d : Dir) (c : Color) (v : α) (a : β) (t s : Tree α β) :
    (join d c v a t s).toList = match d with
      | .left => t.toList ++ v :: s.toList
      | .right => s.toList ++ v :: t.toList := by
  cases d <;> rfl

lemma toList_paint (c : Color) (t : Tree α β) : (t.paint c).toList = t.toList := by
  cases t <;> rfl

lemma plugAll_append (p q : List (Frame α β)) (t : Tree α β) :
    plugAll (p ++ q) t = plugAll q (plugAll p t) := by
  induction p generalizing t with
  | nil => rfl
  | cons f p ih => exact ih (f.plug t)

lemma exists_toList_plugAll (path : List (Frame α β)) :
    ∃ pre post, ∀ t : Tree α β, (plugAll path t).toList = pre ++ t.toList ++ post := by
  induction path with
  | nil => exact ⟨[], [], fun t => by simp [plugAll]⟩
  | cons f path ih =>
    obtain ⟨pre, post, h⟩ := ih
    cases hd : f.dir with
    | left =>
      refine ⟨pre, f.v :: f.sibling.toList ++ post, fun t => ?_⟩
      simp [plugAll, h, Frame.plug, toList_join, hd]
    | right =>
      refine ⟨pre ++ f.sibling.toList ++ [f.v], post, fun t => ?_⟩
      simp [plugAll, h, Frame.plug, toList_join, hd]

lemma toList_plugAll_congr (path : List (Frame α β)) {t s : Tree α β}
    (h : t.toList = s.toList) : (plugAll path t).toList = (plugAll path s).toList := by
  obtain ⟨pre, post, hp⟩ := exists_toList_plugAll path
  rw [hp, hp, h]

def SameOrder (p q : List (Frame α β)) : Prop :=
  ∀ t : Tree α β, (plugAll p t).toList = (plugAll q t).toList

lemma SameOrder.cons {p q : List (Frame α β)} (h : SameOrder p q) {f g : Frame α β}
    (hfg : ∀ t : Tree α β, (f.plug t).toList = (g.plug t).toList) :
    SameOrder (f :: p) (g :: q) := by
  intro t
  rw [plugAll, plugAll, h]
  exact toList_plugAll_congr q (hfg t)

lemma SameOrder.refl (p : List (Frame α β)) : SameOrder p p := fun _ => rfl

lemma toList_plug_paint (c : Color) (f : Frame α β) (t : Tree α β) :
    ((f.paint c).plug t).toList = (f.plug t).toList := by
  simp only [Frame.plug, Frame.paint, toList_join]

lemma blackenLast_sameOrder : ∀ path : List (Frame α β), SameOrder (blackenLast path) path
  | [] => SameOrder.refl _
  | [f] => (SameOrder.refl []).cons (toList_plug_paint .black f)
  | _ :: g :: path => (blackenLast_sameOrder (g :: path)).cons fun _ => rfl

lemma blackenLast_map {γ : Type*} {k : Frame α β → γ} (hk : ∀ f c, k (f.paint c) = k f) :
    ∀ path : List (Frame α β), (blackenLast path).map k = path.map k
  | [] => rfl
  | [f] => by simp [blackenLast, hk]
  | f :: g :: path => by
    rw [blackenLast, List.map_cons, blackenLast_map hk (g :: path)]
    rfl

lemma blackenLast_append (p q : List (Frame α β)) (f : Frame α β) :
    blackenLast (p ++ f :: q) = p ++ blackenLast (f :: q) := by
  induction p with
  | nil => rfl
  | cons g p ih =>
    cases p with
    | nil => rfl
    | cons h p => exact congrArg (g :: ·) ih

section

variable {x : α}

lemma not_mem_frames : ∀ {path : List (Frame α β)} {t : Tree α β},
    (plugAll path t).toList.Nodup → x ∈ t.toList → ∀ f ∈ path, f.v ≠ x ∧ x ∉ f.sibling.toList
  | [], _, _, _ => by simp
  | g :: path, t, hnd, hx => by
    have hsub : (g.plug t).toList.Nodup := by
      obtain ⟨pre, post, hp⟩ := exists_toList_plugAll path
      rw [plugAll, hp] at hnd
      exact (List.nodup_append.mp (List.nodup_append.mp hnd).1).2.1
    have hmem : x ∈ (g.plug t).toList := by
      cases hd : g.dir <;> simp [Frame.plug, toList_join, hd, hx]
    intro f hf
    rcases List.mem_cons.mp hf with rfl | hf
    · cases hd : f.dir with
      | left =>
        simp only [Frame.plug, toList_join, hd] at hsub
        have hdisj := (List.nodup_append.mp hsub).2.2 x hx
        exact ⟨fun h => hdisj f.v (by simp) h.symm, fun h => hdisj x (by simp [h]) rfl⟩
      | right =>
        simp only [Frame.plug, toList_join, hd] at hsub
        obtain ⟨-, hcons, hdisj⟩ := List.nodup_append.mp hsub
        refine ⟨?_, fun h => hdisj x h x (by simp [hx]) rfl⟩
        rintro rfl
        exact (List.nodup_cons.mp hcons).1 hx
    · have hnd : (plugAll path (g.plug t)).toList.Nodup := hnd
      exact not_mem_frames hnd hmem f hf

lemma exists_plugAll_of_mem : ∀ {t : Tree α β}, x ∈ t.toList →
    ∃ path c l a r, t = plugAll path (.node c l x a r)
  | .node c l v a r, h => by
    simp only [toList, List.mem_append, List.mem_cons] at h
    rcases h with h | rfl | h
    · obtain ⟨path, c', l', a', r', rfl⟩ := exists_plugAll_of_mem h
      exact ⟨path ++ [⟨.left, c, v, a, r⟩], c', l', a', r', by rw [plugAll_append]; rfl⟩
    · exact ⟨[], c, l, a, r, rfl⟩
    · obtain ⟨path, c', l', a', r', rfl⟩ := exists_plugAll_of_mem h
      exact ⟨path ++ [⟨.right, c, v, a, l⟩], c', l', a', r', by rw [plugAll_append]; rfl⟩

variable [DecidableEq α]

lemma locate_none : ∀ {t : Tree α β} {path : List (Frame α β)}, x ∉ t.toList →
    locate x t path = none
  | .nil, _, _ => rfl
  | .node c l v a r, path, h => by
    simp only [toList, List.mem_append, List.mem_cons, not_or] at h
    rw [locate, if_neg (Ne.symm h.2.1), locate_none h.1]
    exact locate_none h.2.2

lemma locate_frames : ∀ {path acc : List (Frame α β)} {t : Tree α β}
    {loc : Tree α β × List (Frame α β)}, (∀ f ∈ path, f.v ≠ x ∧ x ∉ f.sibling.toList) →
      locate x t (path ++ acc) = some loc → locate x (plugAll path t) acc = some loc
  | [], _, _, _, _, h => h
  | f :: path, acc, t, loc, hf, h => by
    obtain ⟨hv, hs⟩ := hf f (by simp)
    have hrest : ∀ g ∈ path, g.v ≠ x ∧ x ∉ g.sibling.toList :=
      fun g hg => hf g (List.mem_cons_of_mem _ hg)
    rw [plugAll]
    refine locate_frames hrest ?_
    obtain ⟨dir, color, v, agg, sibling⟩ := f
    cases dir with
    | left =>
      simp only [Frame.plug, join, locate]
      rw [if_neg hv]
      rw [List.cons_append] at h
      rw [h]
    | right =>
      simp only [Frame.plug, join, locate]
      rw [if_neg hv, locate_none hs]
      exact h

lemma locate_plugAll {path : List (Frame α β)} {c : Color} {l r : Tree α β} {a : β}
    (hnd : (plugAll path (.node c l x a r)).toList.Nodup) :
    locate x (plugAll path (.node c l x a r)) [] = some (.node c l x a r, path) := by
  refine locate_frames (not_mem_frames hnd (by simp [toList])) ?_
  rw [locate, if_pos rfl, List.append_nil]

end

section

variable (func : Func α β)

def Correct : Tree α β → Prop
  | .nil => True
  | .node _ l v a r => a = func v l.agg? r.agg? ∧ Correct l ∧ Correct r

def KidsOk : Tree α β → Prop
  | .nil => True
  | .node _ l _ _ r => Correct func l ∧ Correct func r

variable {func} {t s : Tree α β} {path : List (Frame α β)}

lemma Correct.kidsOk (h : Correct func t) : KidsOk func t := by
  cases t with
  | nil => trivial
  | node => exact h.2

lemma Correct.paint (h : Correct func t) (c : Color) : Correct func (t.paint c) := by
  cases t with
  | nil => trivial
  | node => exact h

lemma Correct.child (h : Correct func t) (d : Dir) : Correct func (t.child d) := by
  cases t with
  | nil => trivial
  | node =>
    cases d with
    | left => exact h.2.1
    | right => exact h.2.2

lemma kidsOk_join {d : Dir} {c : Color} {v : α} {a : β} (ht : Correct func t)
    (hs : Correct func s) : KidsOk func (join d c v a t s) := by
  cases d with
  | left => exact ⟨ht, hs⟩
  | right => exact ⟨hs, ht⟩

lemma KidsOk.recompute (h : KidsOk func t) : Correct func (recompute func t) := by
  cases t with
  | nil => trivial
  | node => exact ⟨rfl, h.1, h.2⟩

lemma correct_plugAll : ∀ {path : List (Frame α β)} {t : Tree α β},
    Correct func (plugAll path t) → Correct func t ∧ ∀ f ∈ path, Correct func f.sibling
  | [], _, h => ⟨h, by simp⟩
  | f :: path, t, h => by
    have h : Correct func (plugAll path (f.plug t)) := h
    obtain ⟨hplug, hpath⟩ := correct_plugAll h
    have hf : Correct func t ∧ Correct func f.sibling := by
      cases hd : f.dir with
      | left =>
        simp only [Frame.plug, join, hd] at hplug
        exact hplug.2
      | right =>
        simp only [Frame.plug, join, hd] at hplug
        exact hplug.2.symm
    refine ⟨hf.1, fun g hg => ?_⟩
    rcases List.mem_cons.mp hg with rfl | hg
    · exact hf.2
    · exact hpath g hg

lemma augmentPath_correct : ∀ {path : List (Frame α β)} {t : Tree α β}, KidsOk func t →
    (∀ f ∈ path, KidsOk func f.sibling) → Correct func (augmentPath func t path)
  | [], _, ht, _ => ht.recompute
  | p :: path, t, ht, hpath => by
    have hrest : ∀ f ∈ path, KidsOk func f.sibling :=
      fun f hf => hpath f (List.mem_cons_of_mem _ hf)
    rw [augmentPath]
    split_ifs with hright
    · refine augmentPath_correct (kidsOk_join ht.recompute.kidsOk.recompute ?_) hrest
      rw [isNil_eq_true.mp hright.2]
      trivial
    · exact augmentPath_correct (kidsOk_join ht.recompute (hpath p (by simp)).recompute) hrest

lemma toList_recompute (t : Tree α β) : (recompute func t).toList = t.toList := by
  cases t <;> rfl

lemma augmentPath_toList : ∀ (path : List (Frame α β)) (t : Tree α β),
    (augmentPath func t path).toList = (plugAll path t).toList
  | [], t => toList_recompute t
  | p :: path, t => by
    rw [augmentPath, plugAll]
    split_ifs
    all_goals
      rw [augmentPath_toList]
      refine toList_plugAll_congr path ?_
      simp only [Frame.plug, toList_join, toList_recompute]

end

end LinuxKernel.Rb
