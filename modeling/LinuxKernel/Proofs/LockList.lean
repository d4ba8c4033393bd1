import LinuxKernel.Proofs.Locks

/-!
# The lists of the inodes

After the loop `__posix_lock_file` cuts the locks that stick out of the request and, if no lock of
the list has become the request, puts a copy of it into the list. Every way through it ends with an
`Edit` of the locks of the owner or leaves them as they were.
-/

namespace LinuxKernel.Fs

open Function List

variable {I O : Type*}

@[simp] lemma trimLeft_flock (w : Walk I O) : (trimLeft w).flock = w.st.flock := by
  rw [trimLeft.eq_def]
  cases w.left with
  | none => rfl
  | some l => exact locksWakeUpBlocks_flock _ _

@[simp] lemma trimLeft_lock (w : Walk I O) (p : ℕ) :
    (trimLeft w).lock p = if w.left = some p then (w.st.lock p).upTo ((w.st.lock w.request).start - 1)
      else w.st.lock p := by
  rw [trimLeft.eq_def]
  cases w.left with
  | none => simp
  | some l =>
    simp only [locksWakeUpBlocks_lock, setStop, Option.some.injEq]
    split_ifs with hp
    · rw [hp, update_self]
      rfl
    · exact update_of_ne (Ne.symm hp) _ _

lemma trimRight_cut (w : Walk I O) (newFl2 : Option ℕ) (prev rest : List ℕ)
    (h : w.right ≠ none → w.left ≠ w.right) :
    ∃ w₁, trimRight w newFl2 prev rest = (w₁, prev ++ rest) ∧ w₁.left = w.left
      ∧ w₁.request = w.request ∧ w₁.st.flock = w.st.flock
      ∧ ∀ p, w₁.st.lock p = if w.right = some p then
          (w.st.lock p).startingAt ((w.st.lock w.request).stop + 1) else w.st.lock p := by
  rw [trimRight.eq_def]
  cases hr : w.right with
  | none => exact ⟨w, rfl, rfl, rfl, rfl, fun p => by simp⟩
  | some f =>
    rw [hr] at h
    have hne := h (Option.some_ne_none f)
    have hlock : ∀ p, setStart w.st.lock f ((w.st.lock w.request).stop + 1) p =
        if some f = some p then (w.st.lock p).startingAt ((w.st.lock w.request).stop + 1)
        else w.st.lock p := by
      intro p
      simp only [Option.some.injEq, setStart]
      split_ifs with hp
      · rw [hp, update_self]
        rfl
      · exact update_of_ne (Ne.symm hp) _ _
    cases newFl2 with
    | none =>
      exact ⟨_, rfl, rfl, rfl, locksWakeUpBlocks_flock _ _, fun p => by
        simp only [locksWakeUpBlocks_lock]; exact hlock p⟩
    | some new =>
      simp only [if_neg hne]
      exact ⟨_, rfl, rfl, rfl, locksWakeUpBlocks_flock _ _, fun p => by
        simp only [locksWakeUpBlocks_lock]; exact hlock p⟩

lemma trimRight_split (w : Walk I O) {f new : ℕ} (prev rest : List ℕ) (hr : w.right = some f)
    (hl : w.left = w.right) (hf : new ≠ f) (hreq : new ≠ w.request) :
    ∃ w₁, trimRight w (some new) prev rest = (w₁, prev ++ new :: rest) ∧ w₁.left = some new
      ∧ w₁.request = w.request ∧ w₁.st.flock = w.st.flock ∧ w₁.st.lock new = w.st.lock f
      ∧ w₁.st.lock f = (w.st.lock f).startingAt ((w.st.lock w.request).stop + 1)
      ∧ ∀ p, p ≠ new → p ≠ f → w₁.st.lock p = w.st.lock p := by
  rw [hr] at hl
  rw [trimRight.eq_def]
  simp only [hr, if_pos hl]
  refine ⟨_, rfl, rfl, rfl, locksWakeUpBlocks_flock _ _, ?_, ?_, fun p h1 h2 => ?_⟩
  · simp only [locksWakeUpBlocks_lock, setStart]
    rw [update_of_ne hf, update_self]
  · simp only [locksWakeUpBlocks_lock, setStart]
    rw [update_self, update_of_ne hf.symm, update_of_ne hreq.symm]
    rfl
  · simp only [locksWakeUpBlocks_lock, setStart]
    rw [update_of_ne h2, update_of_ne h1]

def Requested (f : FileLock O) (g : List (FileLock O)) (x : ℤ) (τ : LockType) : Prop :=
  (f.start ≤ x ∧ x ≤ f.stop) ∧ τ = f.type ∧ f.type ≠ .unlck
    ∨ ¬ (f.start ≤ x ∧ x ≤ f.stop) ∧ Covers g x τ

section

variable {w w' w₃ : Walk I O} {A B D lft mid N T N₁ : List ℕ} {s e : ℤ} {newFl newFl2 : Option ℕ}

lemma Segment.groupOk {G : List ℕ} (h : Segment w G B) : GroupOk (G.map w.st.lock) :=
  ⟨pairwise_map.mpr h.sorted, forall_mem_map.mpr h.locks⟩

/-- What is in the place of the locks that the loop has passed, deleted and noted. -/
structure Fills (w w' : Walk I O) (m : ℕ → FileLock O) (D L N T : List ℕ) (s e : ℤ) : Prop where
  kept : ∀ p ∈ D ++ T, m p = w.st.lock p
  left : L.map m = w'.left.toList.map fun l => (w.st.lock l).upTo (s - 1)
  new : ∃ n : FileLock O, n.type = (w.st.lock w.request).type ∧ n.start = s ∧ n.stop = e
    ∧ n.owner = (w.st.lock w.request).owner
    ∧ N.map m = if (w.st.lock w.request).type = .unlck then [] else [n]
  right : w'.right.toList.map m = w'.right.toList.map fun f => (w.st.lock f).startingAt (e + 1)

structure GroupAfter (f : FileLock O) (g : List (FileLock O)) (m : ℕ → FileLock O) (G' : List ℕ) :
    Prop where
  group : GroupOk (G'.map m)
  owner : ∀ p ∈ G', (m p).owner = f.owner
  covers : ∀ x τ, Covers (G'.map m) x τ ↔ Requested f g x τ

section

variable (h : Looped w w' D lft mid N T s e)

include h

lemma Looped.left_mem {l : ℕ} (hl : w'.left = some l) :
    l ∈ lft ++ T := by
  rcases h.left with ⟨hnone, -⟩ | ⟨l', hl', rfl, -⟩ | ⟨f, T', hf, -, -, -, rfl, -⟩
  · rw [hnone] at hl
    cases hl
  · rw [hl'] at hl
    cases hl
    exact mem_append_left _ (mem_singleton_self l)
  · rw [hf] at hl
    cases hl
    exact mem_append_right _ mem_cons_self

lemma Looped.groupAfter
    (hseg : Segment w (D ++ lft ++ mid ++ T) B) (hrange : RangeOk (w.st.lock w.request)) :
    ∃ T', T = w'.right.toList ++ T' ∧ ∀ m L N', Fills w w' m D L N' T' s e →
      GroupAfter (w.st.lock w.request) ((D ++ lft ++ mid ++ T).map w.st.lock) m
        (D ++ L ++ N' ++ w'.right.toList ++ T') := by
  obtain ⟨T', rfl, hedit⟩ := h.edit hseg hrange.le
  refine ⟨T', rfl, fun m L N' hfill => ?_⟩
  obtain ⟨n, hty, hstart, hstop, hown, hN⟩ := hfill.new
  have hD : D.map m = D.map w.st.lock :=
    map_congr_left fun p hp => hfill.kept p (mem_append_left _ hp)
  have hT : T'.map m = T'.map w.st.lock :=
    map_congr_left fun p hp => hfill.kept p (mem_append_right _ hp)
  have hold : (D ++ lft ++ mid ++ (w'.right.toList ++ T')).map w.st.lock =
      D.map w.st.lock ++ (lft ++ mid ++ w'.right.toList).map w.st.lock ++ T'.map w.st.lock := by
    simp only [map_append, append_assoc]
  have hnew : (D ++ L ++ N' ++ w'.right.toList ++ T').map m = D.map w.st.lock
      ++ (w'.left.toList.map fun l => (w.st.lock l).upTo (s - 1))
      ++ (if (w.st.lock w.request).type = .unlck then [] else [n])
      ++ (w'.right.toList.map fun f => (w.st.lock f).startingAt (e + 1)) ++ T'.map w.st.lock := by
    rw [map_append, map_append, map_append, map_append, hD, hT, hfill.left, hN, hfill.right]
  have hg := hseg.groupOk
  rw [hold] at hg
  obtain ⟨hgroup, hcovers⟩ := (hedit n hty hstart hstop).groupOk hg hrange.nonneg hrange.le
    hrange.max
  refine ⟨?_, fun p hp => ?_, fun x τ => ?_⟩
  · rw [hnew]
    exact hgroup
  · simp only [mem_append] at hp
    rcases hp with (((hp | hp) | hp) | hp) | hp
    · rw [hfill.kept p (mem_append_left _ hp)]
      exact hseg.owner p (by simp [hp])
    · have hmem := mem_map_of_mem (f := m) hp
      rw [hfill.left] at hmem
      obtain ⟨l, hl, hpl⟩ := mem_map.mp hmem
      rw [← hpl]
      have hl' := h.left_mem (Option.mem_toList.mp hl)
      refine hseg.owner l ?_
      simp only [mem_append] at hl' ⊢
      tauto
    · have hmem := mem_map_of_mem (f := m) hp
      rw [hN] at hmem
      split_ifs at hmem
      · exact absurd hmem not_mem_nil
      · rw [mem_singleton.mp hmem, hown]
    · have hmem := mem_map_of_mem (f := m) hp
      rw [hfill.right] at hmem
      obtain ⟨l, hl, hpl⟩ := mem_map.mp hmem
      rw [← hpl]
      exact hseg.owner l (by simp [hl])
    · rw [hfill.kept p (mem_append_right _ hp)]
      exact hseg.owner p (by simp [hp])
  · rw [hnew, hcovers, hold]
    rfl

lemma Looped.contained
    (hseg : Segment w (D ++ lft ++ mid ++ T) B) (hr : w'.right ≠ none) (hl : w'.left = w'.right) :
    ∃ f, w'.left = some f ∧ w'.right = some f ∧ lft = [] ∧ mid = [] ∧ N = [] := by
  obtain ⟨⟨st, r, l, rt, a⟩, rfl, rfl, hp⟩ := h.placed
  rcases h.left with ⟨hnone, -⟩ | ⟨l', hl', rfl, -⟩ | ⟨f, T', hf, hr', rfl, rfl, rfl, -⟩
  · exact absurd (hl.symm.trans hnone) hr
  · rcases hp.ending with ⟨hnone, -⟩ | ⟨f, T', rfl, hsome, -⟩
    · exact absurd hnone hr
    · rw [hl', hsome] at hl
      cases hl
      exact absurd (nodup_append.mp hseg.nodup).1 (by simp [nodup_append])
  · refine ⟨f, hf, hr', rfl, rfl, ?_⟩
    rcases hp.new with ⟨-, hN, -⟩ | ⟨-, -, -, hmem⟩ | ⟨-, -, hN, -⟩
    · exact hN
    · exact absurd hmem not_mem_nil
    · exact hN

lemma Looped.left_toList
    (hne : w'.right ≠ none → w'.left ≠ w'.right) : w'.left.toList = lft := by
  rcases h.left with ⟨hnone, rfl, -⟩ | ⟨l', hl', rfl, -⟩ | ⟨f, T', hf, hr', -⟩
  · rw [hnone]
    rfl
  · rw [hl']
    rfl
  · exact absurd (hf.trans hr'.symm) (hne (by rw [hr']; exact Option.some_ne_none f))

end

/-- The variables before the locks on the sides are cut: the request has its place, either as one of
the locks that were there or as the new lock `N₁`. -/
structure Ready (w w' w₃ : Walk I O) (D lft mid N N₁ T : List ℕ) (s e : ℤ) : Prop where
  left : w₃.left = w'.left
  right : w₃.right = w'.right
  flock : w₃.st.flock = w.st.flock
  frame : ∀ p, p ≠ w.request → p ∉ mid → p ∉ N₁ → w₃.st.lock p = w.st.lock p
  request : w₃.request ∉ D ++ lft ++ T
  type : (w₃.st.lock w₃.request).type = (w.st.lock w.request).type
  owner : (w₃.st.lock w₃.request).owner = (w.st.lock w.request).owner
  start : (w₃.st.lock w₃.request).start = s
  stop : (w₃.st.lock w₃.request).stop = e
  new : (N ++ N₁).map w₃.st.lock =
    if (w.st.lock w.request).type = .unlck then [] else [w₃.st.lock w₃.request]

structure Applied (m m' : ℕ → FileLock O) (request : ℕ) (newFl newFl2 : Option ℕ) (A G G' B : List ℕ)
    (res : LockResult) : Prop where
  nodup : (A ++ G' ++ B).Nodup
  sub : ∀ p ∈ G', p ∈ G ∨ newFl = some p ∨ newFl2 = some p
  frame : ∀ p, p ≠ request → p ∉ G → newFl ≠ some p → newFl2 ≠ some p → m' p = m p
  ok : res = .ok → GroupAfter (m request) (G.map m) m' G'
  fail : res ≠ .ok → G' = G ∧ ∀ p ∈ G, m' p = m p

lemma Ready.old (hready : Ready w w' w₃ D lft mid N N₁ T s e)
    (hseg : Segment w (D ++ lft ++ mid ++ T) B)
    (hnd : (A ++ (D ++ lft ++ (N ++ N₁) ++ T) ++ B).Nodup) :
    ∀ p ∈ D ++ lft ++ T, w₃.st.lock p = w.st.lock p := by
  intro p hp
  have hnd' := hseg.nodup
  simp only [nodup_append', disjoint_left, mem_append] at hnd hnd' hp
  refine hready.frame p (fun he => hseg.fresh ?_) (fun hmid => ?_) fun hnew => ?_
  · rw [← he]
    simp only [mem_append]
    tauto
  · grind
  · grind

lemma Ready.cut (hready : Ready w w' w₃ D lft mid N N₁ T s e)
    (h : Looped w w' D lft mid N T s e) (hseg : Segment w (D ++ lft ++ mid ++ T) B)
    (hrange : RangeOk (w.st.lock w.request))
    (hnd : (A ++ (D ++ lft ++ (N ++ N₁) ++ T) ++ B).Nodup)
    (hN : ∀ p ∈ N, p ∈ mid) (hN₁ : ∀ p ∈ N₁, newFl = some p)
    (hne : w'.right ≠ none → w'.left ≠ w'.right) :
    ∃ w₄ G', trimRight w₃ newFl2 (A ++ (D ++ lft ++ N)) (N₁ ++ (T ++ B)) = (w₄, A ++ G' ++ B)
      ∧ (trimLeft w₄).flock = w.st.flock
      ∧ Applied w.st.lock (trimLeft w₄).lock w.request newFl newFl2 A (D ++ lft ++ mid ++ T) G' B
        .ok := by
  obtain ⟨w₄, hcut, hleft, hreq, hflock, hlock⟩ := trimRight_cut w₃ newFl2 (A ++ (D ++ lft ++ N))
    (N₁ ++ (T ++ B)) (by rw [hready.left, hready.right]; exact hne)
  have hlft := h.left_toList hne
  obtain ⟨T', rfl, hafter⟩ := h.groupAfter hseg hrange
  -- the pieces of the list have no lock in common
  obtain ⟨hAG, -, -⟩ := nodup_append'.mp hnd
  obtain ⟨-, hG, -⟩ := nodup_append'.mp hAG
  obtain ⟨hDlN, hTn, hdisT⟩ := nodup_append'.mp hG
  obtain ⟨hDl, -, hdisN⟩ := nodup_append'.mp hDlN
  obtain ⟨-, -, hdisl⟩ := nodup_append'.mp hDl
  obtain ⟨-, -, hdisR⟩ := nodup_append'.mp hTn
  have hold := hready.old hseg hnd
  have hleft' : ∀ p, w₄.left = some p ↔ p ∈ lft := fun p => by
    rw [hleft, hready.left, ← hlft, Option.mem_toList]
  have hright' : ∀ p, w₃.right = some p ↔ p ∈ w'.right.toList := fun p => by
    rw [hready.right, Option.mem_toList]
  have hstart : (w₄.st.lock w₄.request).start = s := by
    rw [hlock, if_neg, hreq, hready.start]
    rw [hright', hreq]
    exact fun hmem => hready.request (by simp [hmem])
  -- what becomes of each lock
  have hother : ∀ p, p ∉ lft → p ∉ w'.right.toList → (trimLeft w₄).lock p = w₃.st.lock p := by
    intro p h1 h2
    rw [trimLeft_lock, if_neg (by rw [hleft']; exact h1), hlock, if_neg (by rw [hright']; exact h2)]
  have hl : ∀ p ∈ lft, (trimLeft w₄).lock p = (w.st.lock p).upTo (s - 1) := by
    intro p hp
    have hnr : p ∉ w'.right.toList := fun hr => hdisT (by simp [hp]) (mem_append_left _ hr)
    rw [trimLeft_lock, if_pos ((hleft' p).mpr hp), hstart, hlock, if_neg (by rw [hright']; exact hnr),
      hold p (by simp [hp])]
  have hr : ∀ p ∈ w'.right.toList, (trimLeft w₄).lock p = (w.st.lock p).startingAt (e + 1) := by
    intro p hp
    have hnl : p ∉ lft := fun hl => hdisT (by simp [hl]) (mem_append_left _ hp)
    rw [trimLeft_lock, if_neg (by rw [hleft']; exact hnl), hlock, if_pos ((hright' p).mpr hp),
      hready.stop, hold p (by simp [hp])]
  have hfills : Fills w w' (trimLeft w₄).lock D lft (N ++ N₁) T' s e := by
    refine ⟨fun p hp => ?_, ?_, ⟨_, hready.type, hready.start, hready.stop, hready.owner, ?_⟩,
      map_congr_left hr⟩
    · rw [hother, hold p]
      · simp only [mem_append] at hp ⊢
        tauto
      · rcases mem_append.mp hp with hp | hp
        · exact hdisl hp
        · exact fun hl => hdisT (by simp [hl]) (mem_append_right _ hp)
      · rcases mem_append.mp hp with hp | hp
        · exact fun hr => hdisT (by simp [hp]) (mem_append_left _ hr)
        · exact fun hr => hdisR hr hp
    · rw [hlft]
      exact map_congr_left hl
    · rw [← hready.new]
      refine map_congr_left fun p hp => hother p ?_ ?_
      · exact fun hl => hdisN (mem_append_right _ hl) hp
      · exact fun hr => hdisT (mem_append_right _ hp) (mem_append_left _ hr)
  refine ⟨w₄, D ++ lft ++ (N ++ N₁) ++ w'.right.toList ++ T', ?_, ?_, ?_, fun p hp => ?_,
    fun p h1 h2 h3 h4 => ?_, fun _ => hafter _ _ _ hfills, fun h => absurd rfl h⟩
  · rw [hcut]
    simp only [append_assoc]
  · rw [trimLeft_flock, hflock, hready.flock]
  · simpa only [append_assoc] using hnd
  · simp only [mem_append] at hp ⊢
    rcases hp with (((hp | hp) | hp | hp) | hp) | hp
    · tauto
    · tauto
    · exact .inl (.inl (.inr (hN p hp)))
    · exact .inr (.inl (hN₁ p hp))
    · tauto
    · tauto
  · simp only [mem_append, not_or] at h2
    rw [hother p h2.1.1.2 h2.2.1]
    exact hready.frame p h1 h2.1.2 fun hp => h3 (hN₁ p hp)

lemma Ready.split {f new : ℕ} (hready : Ready w w' w₃ D [] [] [] N₁ T s e)
    (h : Looped w w' D [] [] [] T s e) (hseg : Segment w (D ++ [] ++ [] ++ T) B)
    (hrange : RangeOk (w.st.lock w.request))
    (hnd : (A ++ (D ++ [] ++ ([] ++ N₁) ++ T) ++ B).Nodup)
    (hnew : new ∉ A ++ (D ++ N₁ ++ T) ++ B) (hreq : new ≠ w₃.request)
    (hN₁ : ∀ p ∈ N₁, newFl = some p) (hl : w'.left = some f) (hr : w'.right = some f) :
    ∃ w₄ G', trimRight w₃ (some new) (A ++ (D ++ [] ++ [])) (N₁ ++ (T ++ B)) = (w₄, A ++ G' ++ B)
      ∧ (trimLeft w₄).flock = w.st.flock
      ∧ Applied w.st.lock (trimLeft w₄).lock w.request newFl (some new) A (D ++ [] ++ [] ++ T) G' B
        .ok := by
  obtain ⟨T', hTeq, hafter⟩ := h.groupAfter hseg hrange
  rw [hr] at hTeq hafter
  have hfT : f ∈ T := by
    rw [hTeq]
    exact mem_cons_self
  have hnf : new ≠ f := fun he => hnew (by simp [he, hfT])
  obtain ⟨w₄, hcut, hleft, hreq', hflock, hlnew, hlf, hlock⟩ := trimRight_split w₃
    (A ++ (D ++ [] ++ [])) (N₁ ++ (T ++ B)) (hready.right.trans hr)
    ((hready.left.trans hl).trans (hready.right.trans hr).symm) hnf hreq
  have hold := hready.old hseg hnd
  have hnd' := hnd
  rw [hTeq] at hnd'
  simp only [append_nil, nil_append, Option.toList_some, nodup_append',
    disjoint_left, mem_append, mem_cons, not_mem_nil, or_false] at hnd'
  have hstart : (w₄.st.lock w₄.request).start = s := by
    rw [hlock, hreq', hready.start]
    · rw [hreq']
      exact hreq.symm
    · rw [hreq']
      exact fun he => hready.request (by simp [he, hfT])
  have hother : ∀ p, p ≠ new → p ≠ f → (trimLeft w₄).lock p = w₃.st.lock p := by
    intro p h1 h2
    rw [trimLeft_lock, hleft, if_neg fun he => h1 (Option.some.inj he).symm, hlock p h1 h2]
  have hnewl : (trimLeft w₄).lock new = (w.st.lock f).upTo (s - 1) := by
    rw [trimLeft_lock, if_pos hleft, hstart, hlnew, hold f (by simp [hfT])]
  have hfl : (trimLeft w₄).lock f = (w.st.lock f).startingAt (e + 1) := by
    rw [trimLeft_lock, hleft, if_neg fun he => hnf (Option.some.inj he), hlf, hready.stop,
      hold f (by simp [hfT])]
  have hfills : Fills w w' (trimLeft w₄).lock D [new] N₁ T' s e := by
    refine ⟨fun p hp => ?_, ?_, ⟨_, hready.type, hready.start, hready.stop, hready.owner, ?_⟩, ?_⟩
    · rw [hother, hold p]
      · rw [hTeq]
        simp only [append_nil, mem_append] at hp ⊢
        tauto
      · rintro rfl
        apply hnew
        rw [hTeq]
        simp only [mem_append] at hp ⊢
        tauto
      · rintro rfl
        grind
    · rw [hl]
      exact congrArg (fun x => [x]) hnewl
    · rw [← hready.new]
      refine map_congr_left fun p hp => hother p ?_ ?_
      · rintro rfl
        exact hnew (by simp [hp])
      · rintro rfl
        grind
    · rw [hr]
      exact congrArg (fun x => [x]) hfl
  refine ⟨w₄, D ++ [new] ++ N₁ ++ [f] ++ T', ?_, ?_, ?_, fun p hp => ?_,
    fun p h1 h2 h3 h4 => ?_, fun _ => hafter _ _ _ hfills, fun h => absurd rfl h⟩
  · rw [hcut, hTeq]
    simp
  · rw [trimLeft_flock, hflock, hready.flock]
  · have hperm : (A ++ (D ++ [new] ++ N₁ ++ [f] ++ T') ++ B) =
        (A ++ D) ++ new :: (N₁ ++ [f] ++ T' ++ B) := by simp
    rw [hperm, nodup_middle, nodup_cons]
    rw [hTeq] at hnew hnd
    exact ⟨by simpa using hnew, by simpa using hnd⟩
  · rw [hTeq]
    simp only [mem_append, mem_singleton, Option.toList_some, append_nil] at hp ⊢
    rcases hp with (((hp | rfl) | hp) | hp) | hp
    · tauto
    · exact .inr (.inr rfl)
    · exact .inr (.inl (hN₁ p hp))
    · tauto
    · tauto
  · have hpf : p ≠ f := by
      rintro rfl
      exact h2 (by simp [hfT])
    rw [hother p (fun he => h4 (by rw [he])) hpf]
    exact hready.frame p h1 not_mem_nil fun hp => h3 (hN₁ p hp)

lemma Looped.ready_added (h : Looped w w' D lft mid N T s e)
    (hseg : Segment w (D ++ lft ++ mid ++ T) B) (hadd : w'.added = true) :
    Ready w w' w' D lft mid N [] T s e := by
  obtain ⟨⟨st, r, l, rt, a⟩, rfl, rfl, hp⟩ := h.placed
  have hnew : w'.request ∉ D ++ lft ++ T
      ∧ N.map w'.st.lock = if (w.st.lock w.request).type = .unlck then [] else
        [w'.st.lock w'.request] := by
    rcases hp.new with ⟨hadd', -⟩ | ⟨-, hheld, rfl, hmem⟩ | ⟨-, hun, rfl, hreq⟩
    · rw [hadd] at hadd'
      cases hadd'
    · refine ⟨fun hmem' => ?_, (if_neg hheld).symm⟩
      have hnd := hseg.nodup
      simp only [nodup_append', disjoint_left, mem_append] at hnd hmem'
      grind
    · refine ⟨fun hmem' => hseg.fresh ?_, (if_pos hun).symm⟩
      rw [hreq] at hmem'
      simp only [mem_append] at hmem' ⊢
      tauto
  refine ⟨rfl, rfl, hp.flock, fun p h1 h2 _ => hp.frame p h1 h2, hnew.1, hp.type, hp.owner, hp.start,
    hp.stop, ?_⟩
  rw [append_nil]
  exact hnew.2

lemma Looped.ready_new {new : ℕ} (h : Looped w w' D lft [] [] T s e)
    (hseg : Segment w (D ++ lft ++ [] ++ T) B) (hadd : w'.added = false)
    (hheld : (w.st.lock w.request).type ≠ .unlck) (hne : new ≠ w.request) :
    Ready w w' { w' with st := { w'.st with
      lock := update w'.st.lock new (w'.st.lock w'.request) } } D lft [] [] [new] T s e := by
  obtain ⟨⟨st, r, l, rt, a⟩, rfl, rfl, hp⟩ := h.placed
  have hreq : w'.request = w.request := by
    rcases hp.new with ⟨-, -, -, hreq, -⟩ | ⟨hadd', -⟩ | ⟨hadd', -⟩
    · exact hreq
    · rw [hadd] at hadd'
      cases hadd'
    · rw [hadd] at hadd'
      cases hadd'
  have hlock : update w'.st.lock new (w'.st.lock w'.request) w'.request =
      w'.st.lock w'.request := update_of_ne (by rw [hreq]; exact hne.symm) _ _
  refine ⟨rfl, rfl, hp.flock, fun p h1 h2 h3 => ?_, fun hmem => hseg.fresh ?_, ?_, ?_, ?_, ?_, ?_⟩
  · show update _ _ _ _ = _
    rw [update_of_ne fun he => h3 (by rw [he]; exact mem_singleton_self _)]
    exact hp.frame p h1 h2
  · rw [show _ = w.request from hreq] at hmem
    simp only [mem_append] at hmem ⊢
    tauto
  · exact (congrArg FileLock.type hlock).trans hp.type
  · exact (congrArg FileLock.owner hlock).trans hp.owner
  · exact (congrArg FileLock.start hlock).trans hp.start
  · exact (congrArg FileLock.stop hlock).trans hp.stop
  · rw [if_neg hheld]
    refine congrArg (fun x => [x]) ?_
    exact (update_self ..).trans hlock.symm

structure Fresh (r : ℕ) (newFl newFl2 : Option ℕ) (L : List ℕ) : Prop where
  request : r ∉ L
  new : ∀ p, newFl = some p → p ∉ L ∧ p ≠ r
  new2 : ∀ p, newFl2 = some p → p ∉ L ∧ p ≠ r
  ne : ∀ p, newFl = some p → newFl2 ≠ some p

lemma Ready.applied (hready : Ready w w' w₃ D lft mid N N₁ T s e)
    (h : Looped w w' D lft mid N T s e) (hseg : Segment w (D ++ lft ++ mid ++ T) B)
    (hrange : RangeOk (w.st.lock w.request))
    (hnd : (A ++ (D ++ lft ++ (N ++ N₁) ++ T) ++ B).Nodup)
    (hN : ∀ p ∈ N, p ∈ mid) (hN₁ : ∀ p ∈ N₁, newFl = some p)
    (hfresh : Fresh w.request newFl newFl2 (A ++ (D ++ lft ++ mid ++ T) ++ B))
    (hreq : w₃.request = w.request ∨ w₃.request ∈ mid)
    (hnew2 : ¬ (w'.right ≠ none ∧ w'.left = w'.right ∧ newFl2 = none)) :
    ∃ w₄ G', trimRight w₃ newFl2 (A ++ (D ++ lft ++ N)) (N₁ ++ (T ++ B)) = (w₄, A ++ G' ++ B)
      ∧ (trimLeft w₄).flock = w.st.flock
      ∧ Applied w.st.lock (trimLeft w₄).lock w.request newFl newFl2 A (D ++ lft ++ mid ++ T) G' B
        .ok := by
  by_cases hone : w'.right ≠ none ∧ w'.left = w'.right
  · obtain ⟨f, hl, hr, rfl, rfl, rfl⟩ := h.contained hseg hone.1 hone.2
    obtain ⟨new, rfl⟩ := Option.ne_none_iff_exists'.mp fun hnone => hnew2 ⟨hone.1, hone.2, hnone⟩
    obtain ⟨hn, hnr⟩ := hfresh.new2 new rfl
    refine hready.split h hseg hrange hnd (fun hmem => ?_) ?_ hN₁ hl hr
    · simp only [append_nil, mem_append] at hmem hn
      rcases hmem with (hA | (hD | hN) | hT) | hB
      · tauto
      · tauto
      · exact hfresh.ne new (hN₁ new hN) rfl
      · tauto
      · tauto
    · rcases hreq with hreq | hreq
      · rw [hreq]
        exact hnr
      · exact absurd hreq not_mem_nil
  · exact hready.cut h hseg hrange hnd hN hN₁ fun h1 h2 => hone ⟨h1, h2⟩

lemma applied_fail {m m' : ℕ → FileLock O} {request : ℕ} {G : List ℕ} {res : LockResult}
    (hnd : (A ++ G ++ B).Nodup) (hreq : request ∉ G) (hm : ∀ p, p ≠ request → m' p = m p)
    (hres : res ≠ .ok) : Applied m m' request newFl newFl2 A G G B res :=
  ⟨hnd, fun _ hp => .inl hp, fun p h1 _ _ _ => hm p h1, fun h => absurd h hres,
    fun _ => ⟨rfl, fun p hp => hm p fun he => hreq (he ▸ hp)⟩⟩

variable [DecidableEq I]

lemma finishLock_spec (h : Looped w w' D lft mid N T s e)
    (hseg : Segment w (D ++ lft ++ mid ++ T) B) (hrange : RangeOk (w.st.lock w.request))
    (hnd : (A ++ (D ++ lft ++ mid ++ T) ++ B).Nodup)
    (hfresh : Fresh w.request newFl newFl2 (A ++ (D ++ lft ++ mid ++ T) ++ B)) (inode : I) :
    ∃ s' res G', finishLock w' inode newFl newFl2 (A ++ (D ++ lft ++ N)) (T ++ B) = (s', res)
      ∧ s'.flock = update w.st.flock inode (A ++ G' ++ B)
      ∧ Applied w.st.lock s'.lock w.request newFl newFl2 A (D ++ lft ++ mid ++ T) G' B res := by
  have hreqG : w.request ∉ D ++ lft ++ mid ++ T := fun hmem =>
    hfresh.request (mem_append_left _ (mem_append_right _ hmem))
  obtain ⟨⟨st, r, l, rt, a⟩, rfl, rfl, hp⟩ := h.placed
  have hframe : ∀ p, p ≠ w.request → p ∉ mid → w'.st.lock p = w.st.lock p := hp.frame
  have hflock : w'.st.flock = w.st.flock := hp.flock
  rw [finishLock.eq_def]
  simp only
  by_cases hone : w'.right ≠ none ∧ w'.left = w'.right ∧ newFl2 = none
  · obtain ⟨f, hl, hr, rfl, rfl, rfl⟩ := h.contained hseg hone.1 hone.2.1
    rw [if_pos hone]
    refine ⟨_, _, _, rfl, ?_, applied_fail hnd hreqG (fun p hp => ?_) (by decide)⟩
    · simp only [LockState.setFlock, hflock, append_nil, append_assoc]
    · exact hframe p hp not_mem_nil
  rw [if_neg hone]
  -- the request is one of the locks that were there, or nothing is left of it
  have hplaced : N.Sublist mid → w'.added = true → (w'.request = w.request ∨ w'.request ∈ mid) →
      ∃ w₄ G', trimRight w' newFl2 (A ++ (D ++ lft ++ N)) (T ++ B) = (w₄, A ++ G' ++ B)
        ∧ (trimLeft w₄).flock = w.st.flock
        ∧ Applied w.st.lock (trimLeft w₄).lock w.request newFl newFl2 A (D ++ lft ++ mid ++ T) G' B
          .ok := by
    intro hN hadd hreq
    have hready := h.ready_added hseg hadd
    have hnd' : (A ++ (D ++ lft ++ (N ++ []) ++ T) ++ B).Nodup := by
      rw [append_nil]
      exact hnd.sublist (((hN.append_left _).append_right _ |>.append_left _).append_right _)
    exact hready.applied h hseg hrange hnd' (fun p hp => hN.subset hp)
      (forall_mem_nil _) hfresh hreq hone
  rcases hp.new with ⟨hadd, rfl, rfl, hreq, hst⟩ | ⟨hadd, -, rfl, hmem⟩ | ⟨hadd, -, rfl, hreq⟩
  · have hst' : w'.st = w.st := hst
    have hreq' : w'.request = w.request := hreq
    rw [if_pos hadd, hst', hreq']
    by_cases hun : (w.st.lock w.request).type = .unlck
    · -- an unlock that has found no lock
      obtain ⟨rfl, hnl⟩ := h.noted hun hadd
      have hnr : w'.right = none := hp.noted hun hadd
      obtain ⟨T', hT, hafter⟩ := h.groupAfter hseg hrange
      rw [hnr] at hT hafter
      rw [if_pos hun]
      refine ⟨_, _, D ++ [] ++ [] ++ T, rfl, ?_, hnd, fun p hp => .inl hp, fun p _ _ _ _ => rfl,
        fun _ => ?_, fun _ => ⟨rfl, fun p _ => rfl⟩⟩
      · simp only [LockState.setFlock, append_nil, append_assoc]
      have hfills : Fills w w' w.st.lock D [] [] T' s e := by
        refine ⟨fun p _ => rfl, by rw [hnl]; rfl, ⟨w'.st.lock w'.request, hp.type, hp.start, hp.stop,
          hp.owner, by rw [if_pos hun]; rfl⟩, by rw [hnr]; rfl⟩
      rw [show D ++ [] ++ [] ++ T = D ++ [] ++ [] ++ Option.toList none ++ T' by rw [hT]; simp]
        at hafter ⊢
      exact hafter _ _ _ hfills
    · rw [if_neg hun]
      cases newFl with
      | none =>
        refine ⟨_, _, D ++ lft ++ [] ++ T, rfl, ?_, applied_fail hnd hreqG (fun p hp => rfl) (by decide)⟩
        simp only [LockState.setFlock, append_nil, append_assoc]
      | some new =>
        obtain ⟨hn, hnr⟩ := hfresh.new new rfl
        have hready := h.ready_new hseg hadd hun hnr
        have hnd' : (A ++ (D ++ lft ++ ([] ++ [new]) ++ T) ++ B).Nodup := by
          have heq : A ++ (D ++ lft ++ ([] ++ [new]) ++ T) ++ B = A ++ (D ++ lft) ++ new :: (T ++ B) := by
            simp
          rw [heq, nodup_middle, nodup_cons]
          exact ⟨by simpa using hn, by simpa using hnd⟩
        obtain ⟨w₄, G', hcut, hfl, happ⟩ := hready.applied h hseg hrange hnd'
          (forall_mem_nil _) (fun p hp => by rw [mem_singleton.mp hp])
          hfresh (.inl hreq') hone
        rw [hst', hreq', singleton_append] at hcut
        simp only [hcut]
        exact ⟨_, _, G', rfl, by rw [LockState.setFlock, hfl], happ⟩
  · obtain ⟨w₄, G', hcut, hfl, happ⟩ := hplaced (singleton_sublist.mpr hmem) hadd (.inr hmem)
    rw [hadd, if_neg Bool.false_ne_true.symm, hcut]
    exact ⟨_, _, G', rfl, by rw [LockState.setFlock, hfl], happ⟩
  · obtain ⟨w₄, G', hcut, hfl, happ⟩ := hplaced (nil_sublist _) hadd (.inl hreq)
    rw [hadd, if_neg Bool.false_ne_true.symm, hcut]
    exact ⟨_, _, G', rfl, by rw [LockState.setFlock, hfl], happ⟩

end

end LinuxKernel.Fs
