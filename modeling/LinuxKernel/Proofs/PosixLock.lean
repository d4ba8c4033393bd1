import LinuxKernel.Proofs.LockList
import Mathlib.Data.List.TakeWhile

/-!
# The POSIX locks of every inode

In the list of an inode the locks of each owner stand together, sorted, disjoint and merged, and
locks of two owners overlap only if both are for reading. A call replaces the locks of one owner by
locks that overlap with no lock that the old ones or the request do not overlap with.
-/

namespace LinuxKernel.Fs

open List

variable {I O : Type*} {m m' : ℕ → FileLock O} {request : ℕ} {newFl newFl2 : Option ℕ}
  {res : LockResult} {inode : I} {α : Type*} {A G G' B A₂ G₂ B₂ : List α}

lemma segment_replace (h : A ++ G ++ B = A₂ ++ G₂ ++ B₂) (hdis : ∀ x ∈ G₂, x ∉ G)
    (hne : G = [] → B = []) :
    ∃ A₃ B₃, A ++ G' ++ B = A₃ ++ G₂ ++ B₃ ∧ ∀ x ∈ A₃ ++ B₃, x ∈ A₂ ++ B₂ ∨ x ∈ G' := by
  cases G with
  | nil =>
    rw [hne rfl, append_nil, append_nil] at h
    refine ⟨A₂, B₂ ++ G', by rw [hne rfl, h]; simp, fun x hx => ?_⟩
    simp only [mem_append] at hx ⊢
    tauto
  | cons g G =>
    cases G₂ with
    | nil =>
      refine ⟨A ++ G' ++ B, [], by simp, fun x hx => ?_⟩
      rw [append_nil] at h hx
      rw [← h]
      simp only [mem_append, mem_cons] at hx ⊢
      tauto
    | cons y G₂ =>
      simp only [append_assoc] at h
      rcases append_eq_append_iff.mp h with ⟨c, rfl, h₁⟩ | ⟨c, rfl, h₁⟩
      · rcases append_eq_append_iff.mp h₁ with ⟨d, rfl, rfl⟩ | ⟨d, hc, h₂⟩
        · refine ⟨A ++ G' ++ d, B₂, by simp, fun x hx => ?_⟩
          simp only [mem_append] at hx ⊢
          tauto
        · cases d with
          | nil =>
            rw [nil_append] at h₂
            refine ⟨A ++ G', B₂, by rw [← h₂]; simp, fun x hx => ?_⟩
            simp only [mem_append] at hx ⊢
            tauto
          | cons z d =>
            obtain rfl : y = z := (List.cons.inj h₂).1
            exact absurd (by rw [hc]; simp) (hdis y mem_cons_self)
      · rcases append_eq_append_iff.mp h₁ with ⟨d, rfl, rfl⟩ | ⟨d, hc, h₂⟩
        · refine ⟨A₂, d ++ G' ++ B, by simp, fun x hx => ?_⟩
          simp only [mem_append] at hx ⊢
          tauto
        · cases d with
          | nil =>
            rw [append_nil] at hc
            rw [nil_append] at h₂
            refine ⟨A₂, G' ++ B, by rw [hc]; simp, fun x hx => ?_⟩
            rw [← h₂]
            simp only [mem_append] at hx ⊢
            tauto
          | cons z d =>
            obtain rfl : g = z := (List.cons.inj h₂).1
            exact absurd mem_cons_self (hdis g (by rw [hc]; simp))

/-- The locks `G` of an owner are one part of the list. -/
structure OwnerLocks (m : ℕ → FileLock O) (L : List ℕ) (o : O) (A G B : List ℕ) : Prop where
  list : L = A ++ G ++ B
  owned : ∀ p ∈ G, (m p).owner = o
  others : ∀ p ∈ A ++ B, (m p).owner ≠ o
  group : GroupOk (G.map m)

structure ListOk (m : ℕ → FileLock O) (L : List ℕ) : Prop where
  nodup : L.Nodup
  owners : ∀ o, ∃ A G B, OwnerLocks m L o A G B
  shared : ∀ p ∈ L, ∀ q ∈ L, (m p).owner ≠ (m q).owner → locksOverlap (m p) (m q) = true →
    (m p).type = .rdlck ∧ (m q).type = .rdlck

def lockTypeAt [DecidableEq O] (m : ℕ → FileLock O) (L : List ℕ) (o : O) (x : ℤ) :
    Option LockType :=
  (L.find? fun p => decide ((m p).owner = o ∧ (m p).start ≤ x ∧ x ≤ (m p).stop)).map
    fun p => (m p).type

section

variable {L A G G' B : List ℕ} {o : O}

lemma OwnerLocks.congr (h : OwnerLocks m L o A G B) (hm : ∀ p ∈ L, m' p = m p) :
    OwnerLocks m' L o A G B := by
  obtain ⟨rfl, howned, hothers, hgroup⟩ := h
  have hG : ∀ p ∈ G, m' p = m p := fun p hp => hm p (by simp [hp])
  refine ⟨rfl, fun p hp => ?_, fun p hp => ?_, ?_⟩
  · rw [hG p hp]
    exact howned p hp
  · rw [hm p (by simp only [mem_append] at hp ⊢; tauto)]
    exact hothers p hp
  · rw [map_congr_left hG]
    exact hgroup

lemma ListOk.congr (h : ListOk m L) (hm : ∀ p ∈ L, m' p = m p) : ListOk m' L := by
  refine ⟨h.nodup, fun o => ?_, fun p hp q hq => ?_⟩
  · obtain ⟨A, G, B, hown⟩ := h.owners o
    exact ⟨A, G, B, hown.congr hm⟩
  · rw [hm p hp, hm q hq]
    exact h.shared p hp q hq

lemma ListOk.lockOk (h : ListOk m L) {p : ℕ} (hp : p ∈ L) : LockOk (m p) := by
  obtain ⟨A, G, B, hown⟩ := h.owners (m p).owner
  rw [hown.list] at hp
  have hG : p ∈ G := by
    by_contra hG
    refine hown.others p ?_ rfl
    simp only [mem_append] at hp ⊢
    tauto
  exact hown.group.locks _ (mem_map_of_mem hG)

variable [DecidableEq O]

lemma OwnerLocks.lockTypeAt_iff (h : OwnerLocks m L o A G B) {x : ℤ} {τ : LockType} :
    lockTypeAt m L o x = some τ ↔ Covers (G.map m) x τ := by
  have hmem : ∀ p ∈ L, (m p).owner = o → p ∈ G := by
    intro p hp ho
    rw [h.list] at hp
    by_contra hG
    refine h.others p ?_ ho
    simp only [mem_append] at hp ⊢
    tauto
  constructor
  · intro hfind
    obtain ⟨p, hp, rfl⟩ := Option.map_eq_some_iff.mp hfind
    have hcond := List.find?_some hp
    rw [decide_eq_true_eq] at hcond
    obtain ⟨ho, h1, h2⟩ := hcond
    exact ⟨m p, mem_map_of_mem (hmem p (List.mem_of_find?_eq_some hp) ho), rfl, h1, h2⟩
  intro hc
  have hc' := hc
  obtain ⟨f, hf, rfl, h1, h2⟩ := hc'
  obtain ⟨p, hp, rfl⟩ := mem_map.mp hf
  have hpL : p ∈ L := by
    rw [h.list]
    simp [hp]
  cases hfind : L.find? fun p => decide ((m p).owner = o ∧ (m p).start ≤ x ∧ x ≤ (m p).stop) with
  | none => exact absurd (decide_eq_true ⟨h.owned p hp, h1, h2⟩) (List.find?_eq_none.mp hfind p hpL)
  | some q =>
    have hcond := List.find?_some hfind
    rw [decide_eq_true_eq] at hcond
    obtain ⟨ho, hq1, hq2⟩ := hcond
    rw [lockTypeAt, hfind, Option.map_some]
    have hq := hmem q (List.mem_of_find?_eq_some hfind) ho
    exact congrArg some (h.group.covers_unique ⟨m q, mem_map_of_mem hq, rfl, hq1, hq2⟩ hc)

lemma OwnerLocks.lockTypeAt_eq {L' A' B' : List ℕ} {x : ℤ} (h : OwnerLocks m L o A G B)
    (h' : OwnerLocks m' L' o A' G' B')
    (hc : ∀ τ, Covers (G'.map m') x τ ↔ Covers (G.map m) x τ) :
    lockTypeAt m' L' o x = lockTypeAt m L o x :=
  Option.ext fun τ => h'.lockTypeAt_iff.trans ((hc τ).trans h.lockTypeAt_iff.symm)

lemma OwnerLocks.search (h : OwnerLocks m L o A G B) (ho : (m request).owner = o) :
    ∃ A' B', OwnerLocks m L o A' G B' ∧ (G = [] → B' = [])
      ∧ L.takeWhile (fun fl => !posixSameOwner (m request) (m fl)) = A'
      ∧ L.dropWhile (fun fl => !posixSameOwner (m request) (m fl)) = G ++ B' := by
  obtain ⟨rfl, howned, hothers, hgroup⟩ := h
  have hother : ∀ p ∈ A ++ B, (!posixSameOwner (m request) (m p)) = true := by
    intro p hp
    have hne : ¬ (m request).owner = (m p).owner := fun he => hothers p hp (he.symm.trans ho)
    rw [posixSameOwner, decide_eq_false hne, Bool.not_false]
  cases G with
  | nil =>
    refine ⟨A ++ B, [], ⟨by simp, howned, by simpa using hothers, hgroup⟩, fun _ => rfl, ?_, ?_⟩
    · rw [append_nil]
      exact takeWhile_eq_self_iff.mpr hother
    · rw [append_nil]
      exact dropWhile_eq_nil_iff.mpr hother
  | cons g G =>
    have hA : ∀ p ∈ A, (!posixSameOwner (m request) (m p)) = true := fun p hp =>
      hother p (mem_append_left _ hp)
    have hg : (!posixSameOwner (m request) (m g)) = false := by
      rw [posixSameOwner, howned g mem_cons_self, ho]
      simp
    refine ⟨A, B, ⟨rfl, howned, hothers, hgroup⟩, fun h => (cons_ne_nil _ _ h).elim, ?_, ?_⟩
    · rw [append_assoc, takeWhile_append_of_pos hA, cons_append, takeWhile_cons,
        hg, if_neg Bool.false_ne_true, append_nil]
    · rw [append_assoc, dropWhile_append_of_pos hA, cons_append, dropWhile_cons,
        hg, if_neg Bool.false_ne_true]

end

lemma LockType.eq_rdlck : ∀ {τ : LockType}, τ ≠ .unlck → τ ≠ .wrlck → τ = .rdlck
  | .rdlck, _, _ => rfl
  | .wrlck, _, h => absurd rfl h
  | .unlck, h, _ => absurd rfl h

lemma locksOverlap_comm (f g : FileLock O) : locksOverlap f g = locksOverlap g f :=
  Bool.and_comm _ _

section

variable {A G G' B : List ℕ} {s : LockState I O}

lemma Applied.others (h : Applied m m' request newFl newFl2 A G G' B res)
    (hown : OwnerLocks m (A ++ G ++ B) (m request).owner A G B)
    (hfresh : Fresh request newFl newFl2 (A ++ G ++ B)) : ∀ p ∈ A ++ B, m' p = m p := by
  intro p hp
  have hL : p ∈ A ++ G ++ B := by
    simp only [mem_append] at hp ⊢
    tauto
  refine h.frame p (fun he => hfresh.request (he ▸ hL))
    (fun hG => hown.others p hp (hown.owned p hG))
    (fun hn => (hfresh.new p hn).1 hL) fun hn => (hfresh.new2 p hn).1 hL

lemma Applied.same (h : Applied m m' request newFl newFl2 A G G' B res)
    (hown : OwnerLocks m (A ++ G ++ B) (m request).owner A G B)
    (hfresh : Fresh request newFl newFl2 (A ++ G ++ B)) (hres : res ≠ .ok) :
    G' = G ∧ ∀ p ∈ A ++ G ++ B, m' p = m p := by
  obtain ⟨hG', hG⟩ := h.fail hres
  refine ⟨hG', fun p hp => ?_⟩
  by_cases hpG : p ∈ G
  · exact hG p hpG
  · refine h.others hown hfresh p ?_
    simp only [mem_append] at hp ⊢
    tauto

section

variable (h : Applied m m' request newFl newFl2 A G G' B .ok)

include h

lemma Applied.ownerLocks
    (hown : OwnerLocks m (A ++ G ++ B) (m request).owner A G B)
    (hfresh : Fresh request newFl newFl2 (A ++ G ++ B)) :
    OwnerLocks m' (A ++ G' ++ B) (m request).owner A G' B := by
  have hafter := h.ok rfl
  refine ⟨rfl, hafter.owner, fun p hp => ?_, hafter.group⟩
  rw [h.others hown hfresh p hp]
  exact hown.others p hp

lemma Applied.ownerLocks_ne {o : O} {A₂ G₂ B₂ : List ℕ}
    (hown : OwnerLocks m (A ++ G ++ B) (m request).owner A G B) (hend : G = [] → B = [])
    (hfresh : Fresh request newFl newFl2 (A ++ G ++ B)) (ho : o ≠ (m request).owner)
    (hown₂ : OwnerLocks m (A ++ G ++ B) o A₂ G₂ B₂) :
    (∀ p ∈ G₂, m' p = m p) ∧ ∃ A₃ B₃, OwnerLocks m' (A ++ G' ++ B) o A₃ G₂ B₃ := by
  have hG : ∀ p ∈ G₂, p ∉ G := fun p hp hG => ho ((hown₂.owned p hp).symm.trans (hown.owned p hG))
  obtain ⟨A₃, B₃, hlist, hsub⟩ : ∃ A₃ B₃, A ++ G' ++ B = A₃ ++ G₂ ++ B₃
      ∧ ∀ x ∈ A₃ ++ B₃, x ∈ A₂ ++ B₂ ∨ x ∈ G' := segment_replace hown₂.list hG hend
  have hmem : ∀ p ∈ A₂ ++ G₂ ++ B₂, p ∉ G → p ∈ A ++ B := by
    intro p hp hpG
    rw [← hown₂.list] at hp
    simp only [mem_append] at hp ⊢
    tauto
  have hsame : ∀ p ∈ G₂, m' p = m p := fun p hp =>
    h.others hown hfresh p (hmem p (by simp [hp]) (hG p hp))
  refine ⟨hsame, A₃, B₃, hlist, fun p hp => ?_, fun p hp => ?_, ?_⟩
  · rw [hsame p hp]
    exact hown₂.owned p hp
  · have hnew : p ∈ G' → (m' p).owner ≠ o := fun hG' => by
      rw [(h.ok rfl).owner p hG']
      exact ho.symm
    by_cases hG' : p ∈ G'
    · exact hnew hG'
    have hL : p ∈ A ++ G' ++ B := by
      rw [hlist]
      simp only [mem_append] at hp ⊢
      tauto
    have hAB : p ∈ A ++ B := by
      simp only [mem_append] at hL ⊢
      tauto
    rw [h.others hown hfresh p hAB]
    exact hown₂.others p ((hsub p hp).resolve_right hG')
  · rw [map_congr_left hsame]
    exact hown₂.group

lemma Applied.shared {p q : ℕ}
    (hok : ListOk m (A ++ G ++ B)) (hown : OwnerLocks m (A ++ G ++ B) (m request).owner A G B)
    (hfresh : Fresh request newFl newFl2 (A ++ G ++ B))
    (hfree : (m request).type ≠ .unlck → ∀ q ∈ A ++ G ++ B, (m q).owner ≠ (m request).owner →
      locksOverlap (m request) (m q) = true → (m request).type ≠ .wrlck ∧ (m q).type ≠ .wrlck)
    (hp : p ∈ G') (hq : q ∈ A ++ B) (hover : locksOverlap (m' p) (m' q) = true) :
    (m' p).type = .rdlck ∧ (m' q).type = .rdlck := by
  have hafter := h.ok rfl
  have hqL : q ∈ A ++ G ++ B := by
    simp only [mem_append] at hq ⊢
    tauto
  have hqok := hok.lockOk hqL
  have hpok := hafter.group.locks _ (mem_map_of_mem hp)
  rw [h.others hown hfresh q hq] at hover ⊢
  rw [locksOverlap, Bool.and_eq_true, decide_eq_true_eq, decide_eq_true_eq] at hover
  -- a byte that both locks have
  obtain ⟨x, hx1, hx2, hx3, hx4⟩ : ∃ x, (m' p).start ≤ x ∧ x ≤ (m' p).stop ∧ (m q).start ≤ x
      ∧ x ≤ (m q).stop :=
    ⟨max (m' p).start (m q).start, by omega, by have := hpok.le; have := hqok.le; omega, by omega,
      by have := hpok.le; have := hqok.le; omega⟩
  have hc : Covers (G'.map m') x (m' p).type := ⟨_, mem_map_of_mem hp, rfl, hx1, hx2⟩
  rcases (hafter.covers x _).mp hc with ⟨⟨h1, h2⟩, hty, hheld⟩ | ⟨-, f, hf, hty, h1, h2⟩
  · have hover' : locksOverlap (m request) (m q) = true := by
      rw [locksOverlap, Bool.and_eq_true, decide_eq_true_eq, decide_eq_true_eq]
      omega
    obtain ⟨hr, hw⟩ := hfree hheld q hqL (hown.others q hq) hover'
    rw [hty]
    exact ⟨LockType.eq_rdlck hheld hr, LockType.eq_rdlck hqok.held hw⟩
  · obtain ⟨g, hg, rfl⟩ := mem_map.mp hf
    have hover' : locksOverlap (m g) (m q) = true := by
      rw [locksOverlap, Bool.and_eq_true, decide_eq_true_eq, decide_eq_true_eq]
      omega
    rw [← hty]
    refine hok.shared g (by simp [hg]) q hqL ?_ hover'
    rw [hown.owned g hg]
    exact (hown.others q hq).symm

end

lemma Applied.listOk (h : Applied m m' request newFl newFl2 A G G' B res)
    (hok : ListOk m (A ++ G ++ B)) (hown : OwnerLocks m (A ++ G ++ B) (m request).owner A G B)
    (hend : G = [] → B = []) (hfresh : Fresh request newFl newFl2 (A ++ G ++ B))
    (hfree : (m request).type ≠ .unlck → ∀ q ∈ A ++ G ++ B, (m q).owner ≠ (m request).owner →
      locksOverlap (m request) (m q) = true → (m request).type ≠ .wrlck ∧ (m q).type ≠ .wrlck) :
    ListOk m' (A ++ G' ++ B) := by
  have hothers := h.others hown hfresh
  by_cases hres : res = .ok
  · subst hres
    refine ⟨h.nodup, fun o => ?_, fun p hp q hq hne hover => ?_⟩
    · by_cases ho : o = (m request).owner
      · subst ho
        exact ⟨A, G', B, h.ownerLocks hown hfresh⟩
      · obtain ⟨A₂, G₂, B₂, hown₂⟩ := hok.owners o
        obtain ⟨-, A₃, B₃, hown₃⟩ := h.ownerLocks_ne hown hend hfresh ho hown₂
        exact ⟨A₃, G₂, B₃, hown₃⟩
    · have hcase : ∀ p ∈ A ++ G' ++ B, p ∈ G' ∨ p ∈ A ++ B := by
        intro p hp
        simp only [mem_append] at hp ⊢
        tauto
      have howner := (h.ok rfl).owner
      rcases hcase p hp with hp | hp <;> rcases hcase q hq with hq | hq
      · exact absurd ((howner p hp).trans (howner q hq).symm) hne
      · exact h.shared hok hown hfresh hfree hp hq hover
      · rw [locksOverlap_comm] at hover
        exact (h.shared hok hown hfresh hfree hq hp hover).symm
      · rw [hothers p hp, hothers q hq] at hne hover ⊢
        simp only [mem_append] at hp hq
        exact hok.shared p (by simp only [mem_append]; tauto) q
          (by simp only [mem_append]; tauto) hne hover
  · obtain ⟨rfl, hsame⟩ := h.same hown hfresh hres
    exact hok.congr hsame

variable [DecidableEq O] [DecidableEq I]

lemma applyLock_spec (hok : ListOk s.lock (s.flock inode))
    (hfresh : Fresh request newFl newFl2 (s.flock inode)) (hr : RangeOk (s.lock request)) :
    ∃ A G G' B s' res, OwnerLocks s.lock (s.flock inode) (s.lock request).owner A G B
      ∧ (G = [] → B = []) ∧ applyLock s inode request newFl newFl2 = (s', res)
      ∧ s'.flock = Function.update s.flock inode (A ++ G' ++ B)
      ∧ Applied s.lock s'.lock request newFl newFl2 A G G' B res := by
  obtain ⟨A₀, G, B₀, hown₀⟩ := hok.owners (s.lock request).owner
  obtain ⟨A, B, hown, hend, htake, hdrop⟩ := hown₀.search rfl
  have hlist := hown.list
  have hnd := hok.nodup
  rw [hlist] at hnd hfresh
  have hGB : (G ++ B).Nodup := by
    rw [append_assoc] at hnd
    exact (nodup_append'.mp hnd).2.1
  have hmem : request ∉ G ++ B := fun hmem => hfresh.request (by
    rw [append_assoc]
    exact mem_append_right _ hmem)
  have hseg : Segment (⟨s, request, none, none, false⟩ : Walk I O) G B :=
    ⟨hGB, hmem, hown.owned, fun b hb => hown.others b
      (mem_append_right _ (List.mem_of_mem_head? hb)), pairwise_map.mp hown.group.sorted,
      forall_mem_map.mp hown.group.locks⟩
  obtain ⟨D, lft, mid, N, T, w', a, e, rfl, hcall, hloop⟩ :=
    processLocks_spec G A _ hseg rfl rfl rfl
  obtain ⟨s', res, G', hfinish, hflock, happ⟩ := finishLock_spec hloop hseg hr hnd hfresh inode
  refine ⟨A, _, G', B, s', res, hown, hend, ?_, hflock, happ⟩
  rw [applyLock]
  simp only [htake, hdrop, hcall]
  exact hfinish

end

structure FilesOk (s : LockState I O) : Prop where
  lists : ∀ i, ListOk s.lock (s.flock i)
  disjoint : ∀ i j, i ≠ j → ∀ p ∈ s.flock i, p ∉ s.flock j

section

variable [DecidableEq O] {s s' : LockState I O}

/-- The owner has the type of the request on its bytes if the call succeeds and is not only a test,
and all other bytes have the types they had. -/
structure TypesAfter (s s' : LockState I O) (inode : I) (f : FileLock O) (res : LockResult) :
    Prop where
  owner : ∀ x, lockTypeAt s'.lock (s'.flock inode) f.owner x =
    if (res = .ok ∧ f.flAccess = false) ∧ f.start ≤ x ∧ x ≤ f.stop then
      (if f.type = .unlck then none else some f.type)
    else lockTypeAt s.lock (s.flock inode) f.owner x
  others : ∀ o, o ≠ f.owner → ∀ x,
    lockTypeAt s'.lock (s'.flock inode) o x = lockTypeAt s.lock (s.flock inode) o x
  inodes : ∀ i, i ≠ inode → ∀ o x,
    lockTypeAt s'.lock (s'.flock i) o x = lockTypeAt s.lock (s.flock i) o x

lemma ListOk.lockTypeAt_congr {L : List ℕ} (h : ListOk m L)
    (hm : ∀ p ∈ L, m' p = m p) (o : O) (x : ℤ) : lockTypeAt m' L o x = lockTypeAt m L o x := by
  obtain ⟨A, G, B, hown⟩ := h.owners o
  refine hown.lockTypeAt_eq (hown.congr hm) fun τ => ?_
  rw [map_congr_left fun p hp => hm p (by rw [hown.list]; simp [hp])]

lemma FilesOk.congr (h : FilesOk s) (hflock : s'.flock = s.flock)
    (hm : ∀ i, ∀ p ∈ s.flock i, s'.lock p = s.lock p) :
    FilesOk s' ∧ ∀ i o x,
    lockTypeAt s'.lock (s'.flock i) o x = lockTypeAt s.lock (s.flock i) o x := by
  rw [show s' = { s' with flock := s.flock } by rw [← hflock]]
  exact ⟨⟨fun i => (h.lists i).congr (hm i), h.disjoint⟩,
    fun i o x => (h.lists i).lockTypeAt_congr (hm i) o x⟩

lemma Fresh.ite {c : Prop} [Decidable c] {L : List ℕ} (h : Fresh request newFl newFl2 L) :
    Fresh request (if c then none else newFl) (if c then none else newFl2) L := by
  split_ifs
  · exact ⟨h.request, fun _ hn => absurd hn (by simp), fun _ hn => absurd hn (by simp),
      fun _ hn => absurd hn (by simp)⟩
  · exact h

lemma findConflict_none (h : findConflict s inode request = none) :
    (s.lock request).type ≠ .unlck → ∀ q ∈ s.flock inode,
      (s.lock q).owner ≠ (s.lock request).owner → locksOverlap (s.lock request) (s.lock q) = true →
      (s.lock request).type ≠ .wrlck ∧ (s.lock q).type ≠ .wrlck := by
  intro hheld q hq ho hover
  rw [findConflict, if_neg hheld] at h
  have hq' := List.find?_eq_none.mp h q hq
  have hne : posixSameOwner (s.lock request) (s.lock q) = false :=
    decide_eq_false fun he => ho he.symm
  rw [posixLocksConflict, hne, hover, locksConflict, Bool.not_false, Bool.and_true, Bool.true_and,
    Bool.or_eq_true, decide_eq_true_eq, decide_eq_true_eq, not_or] at hq'
  exact ⟨hq'.2, hq'.1⟩

lemma FilesOk.unchanged {f : FileLock O} (hinv : FilesOk s) (hflock : s'.flock = s.flock)
    (hlock : s'.lock = s.lock) (hres : ¬ (res = .ok ∧ f.flAccess = false)) :
    FilesOk s' ∧ TypesAfter s s' inode f res := by
  obtain ⟨hinv', htypes⟩ := hinv.congr hflock fun i p _ => by rw [hlock]
  refine ⟨hinv', fun x => ?_, fun o _ x => htypes inode o x, fun i _ o x => htypes i o x⟩
  rw [if_neg fun hc => hres hc.1]
  exact htypes inode _ x

variable [DecidableEq I]

lemma applyLock_types (hinv : FilesOk s) (hfresh : ∀ i, Fresh request newFl newFl2 (s.flock i))
    (hr : RangeOk (s.lock request)) (hfree : findConflict s inode request = none)
    (hacc : (s.lock request).flAccess = false)
    (h : applyLock s inode request newFl newFl2 = (s', res)) :
    FilesOk s' ∧ TypesAfter s s' inode (s.lock request) res := by
  obtain ⟨A, G, G', B, s₁, res₁, hown, hend, hcall, hflock, happ⟩ :=
    applyLock_spec (hinv.lists inode) (hfresh inode) hr
  rw [h] at hcall
  obtain ⟨rfl, rfl⟩ := Prod.mk.inj hcall
  have hlist := hown.list
  have hok := hinv.lists inode
  have hfr := hfresh inode
  have hfree' := findConflict_none hfree
  rw [hlist] at hok hfr hfree'
  have hown' := hown
  rw [hlist] at hown'
  have hin : s'.flock inode = A ++ G' ++ B := by rw [hflock, Function.update_self]
  have hout : ∀ i, i ≠ inode → s'.flock i = s.flock i := fun i hi => by
    rw [hflock, Function.update_of_ne hi]
  have hsame : ∀ i, i ≠ inode → ∀ p ∈ s.flock i, s'.lock p = s.lock p := by
    intro i hi p hp
    refine happ.frame p (fun he => (hfresh i).request (he ▸ hp)) (fun hG => ?_)
      (fun hn => ((hfresh i).new p hn).1 hp) fun hn => ((hfresh i).new2 p hn).1 hp
    refine hinv.disjoint i inode hi p hp ?_
    rw [hlist]
    simp [hG]
  refine ⟨⟨fun i => ?_, fun i j hij p hp hp' => ?_⟩, fun x => ?_, fun o ho x => ?_,
    fun i hi o x => ?_⟩
  · by_cases hi : i = inode
    · rw [hi, hin]
      exact happ.listOk hok hown' hend hfr hfree'
    · rw [hout i hi]
      exact (hinv.lists i).congr (hsame i hi)
  · have hmem : ∀ i, p ∈ s'.flock i →
        p ∈ s.flock i ∨ i = inode ∧ (newFl = some p ∨ newFl2 = some p) := by
      intro i hpi
      by_cases hi : i = inode
      · rw [hi, hin] at hpi
        rw [hi, hlist]
        have := happ.sub p
        simp only [mem_append] at hpi ⊢
        tauto
      · rw [hout i hi] at hpi
        exact .inl hpi
    have hnot : ∀ i, newFl = some p ∨ newFl2 = some p → p ∉ s.flock i := fun i hn =>
      hn.elim (fun hn => ((hfresh i).new p hn).1) fun hn => ((hfresh i).new2 p hn).1
    rcases hmem i hp with hpi | ⟨rfl, hn⟩ <;> rcases hmem j hp' with hpj | ⟨rfl, hn'⟩
    · exact hinv.disjoint i j hij p hpi hpj
    · exact hnot i hn' hpi
    · exact hnot j hn hpj
    · exact hij rfl
  · by_cases hres : res = .ok
    · subst hres
      have hafter := happ.ownerLocks hown' hfr
      rw [hin]
      by_cases hx : (s.lock request).start ≤ x ∧ x ≤ (s.lock request).stop
      · rw [if_pos ⟨⟨rfl, hacc⟩, hx⟩]
        refine Option.ext fun τ => ?_
        rw [hafter.lockTypeAt_iff, (happ.ok rfl).covers x τ, Requested]
        by_cases hun : (s.lock request).type = .unlck
        · simp [hx, hun]
        · simp [hx, hun, eq_comm]
      · rw [if_neg fun hc => hx hc.2]
        refine hown.lockTypeAt_eq hafter fun τ => ?_
        rw [(happ.ok rfl).covers x τ, Requested]
        simp only [hx, false_and, false_or, not_false_eq_true, true_and]
    · obtain ⟨rfl, hm⟩ := happ.same hown' hfr hres
      rw [if_neg fun hc => hres hc.1.1, hin, hlist]
      exact hok.lockTypeAt_congr hm _ x
  · rw [hin]
    by_cases hres : res = .ok
    · subst hres
      obtain ⟨A₂, G₂, B₂, hown₂⟩ := hok.owners o
      obtain ⟨hm, A₃, B₃, hown₃⟩ := happ.ownerLocks_ne hown' hend hfr ho hown₂
      rw [hlist]
      refine hown₂.lockTypeAt_eq hown₃ fun τ => ?_
      rw [map_congr_left hm]
    · obtain ⟨rfl, hm⟩ := happ.same hown' hfr hres
      rw [hlist]
      exact hok.lockTypeAt_congr hm o x
  · rw [hout i hi]
    exact (hinv.lists i).lockTypeAt_congr (hsame i hi) o x

lemma posixLockFile_types (hinv : FilesOk s)
    (hfresh : ∀ i, Fresh request newFl newFl2 (s.flock i)) (hr : RangeOk (s.lock request))
    (h : posixLockFile s inode request newFl newFl2 = some (s', res)) :
    FilesOk s' ∧ TypesAfter s s' inode (s.lock request) res := by
  rw [posixLockFile.eq_def] at h
  simp only at h
  cases hfind : findConflict s inode request with
  | some fl =>
    simp only [hfind] at h
    split_ifs at h
    · cases h
      exact hinv.unchanged rfl rfl (by simp)
    · cases h
      exact hinv.unchanged rfl rfl (by simp)
    · obtain ⟨s₁, hins, heq⟩ := Option.map_eq_some_iff.mp h
      cases heq
      rw [locksInsertBlock] at hins
      split_ifs at hins
      cases hins
      exact hinv.unchanged rfl rfl (by simp)
  | none =>
    simp only [hfind] at h
    by_cases hacc : (s.lock request).flAccess = true
    · rw [if_pos hacc] at h
      cases h
      exact hinv.unchanged rfl rfl (by simp [hacc])
    · rw [if_neg hacc] at h
      exact applyLock_types hinv (fun i => (hfresh i).ite) hr hfind (Bool.eq_false_iff.mpr hacc)
        (Option.some.inj h)

end

section

/-- A call of the system: the fields of a request are set and `__posix_lock_file` is called, or a
request stops waiting. -/
inductive LockCall (I O : Type*) where
  | lock (inode : I) (request : ℕ) (f : FileLock O) (newFl newFl2 : Option ℕ)
  | unblock (waiter : ℕ)

variable [DecidableEq O] [DecidableEq I] {s s' : LockState I O} {f : FileLock O} {c : LockCall I O}
  {P : LockState I O → LockCall I O → Prop}

def LockCall.exec (s : LockState I O) : LockCall I O → Option (LockState I O × LockResult)
  | .lock inode request f newFl newFl2 =>
    posixLockFile { s with lock := Function.update s.lock request f } inode request newFl newFl2
  | .unblock waiter => some (posixUnblockLock s waiter)

def LockCall.Lawful (s : LockState I O) : LockCall I O → Prop
  | .lock _ request f newFl newFl2 => RangeOk f ∧ ∀ i, Fresh request newFl newFl2 (s.flock i)
  | .unblock _ => True

def LockState.empty (m : ℕ → FileLock O) : LockState I O :=
  ⟨m, fun _ => [], fun _ => none, fun _ => [], []⟩

/-- The states that calls under a condition lead to. -/
inductive LockReach (P : LockState I O → LockCall I O → Prop) : LockState I O → Prop
  | empty (m : ℕ → FileLock O) : LockReach P (.empty m)
  | call {s s' : LockState I O} {res : LockResult} (c : LockCall I O) :
    LockReach P s → P s c → c.exec s = some (s', res) → LockReach P s'

omit [DecidableEq O] [DecidableEq I] in
lemma filesOk_empty (m : ℕ → FileLock O) : FilesOk (LockState.empty m : LockState I O) := by
  refine ⟨fun i => ⟨nodup_nil, fun o => ⟨[], [], [], rfl, ?_, ?_, ?_, ?_⟩, ?_⟩, ?_⟩
  · exact forall_mem_nil _
  · exact forall_mem_nil _
  · exact List.Pairwise.nil
  · exact forall_mem_nil _
  · exact forall_mem_nil _
  · exact fun i j _ p hp => absurd hp not_mem_nil

lemma lock_types
    (hinv : FilesOk s) (hlaw : (LockCall.lock inode request f newFl newFl2).Lawful s)
    (h : (LockCall.lock inode request f newFl newFl2).exec s = some (s', res)) :
    FilesOk s' ∧ TypesAfter s s' inode f res := by
  obtain ⟨hr, hfresh⟩ := hlaw
  set s₁ : LockState I O := { s with lock := Function.update s.lock request f } with hs₁
  have hsame : ∀ i, ∀ p ∈ s.flock i, s₁.lock p = s.lock p := by
    intro i p hp
    have hne : p ≠ request := fun he => (hfresh i).request (he ▸ hp)
    exact Function.update_of_ne hne _ _
  have hflock : s₁.flock = s.flock := rfl
  obtain ⟨hinv₁, htypes₁⟩ := hinv.congr hflock hsame
  have hf : s₁.lock request = f := Function.update_self ..
  obtain ⟨hinv', htypes⟩ := posixLockFile_types hinv₁ hfresh (by rw [hf]; exact hr) h
  rw [hf] at htypes
  refine ⟨hinv', fun x => ?_, fun o ho x => ?_, fun i hi o x => ?_⟩
  · rw [htypes.owner x, htypes₁]
  · rw [htypes.others o ho x, htypes₁]
  · rw [htypes.inodes i hi o x, htypes₁]

lemma filesOk_exec (hinv : FilesOk s) (hlaw : c.Lawful s)
    (h : c.exec s = some (s', res)) : FilesOk s' := by
  cases c with
  | lock inode request f newFl newFl2 => exact (lock_types hinv hlaw h).1
  | unblock waiter =>
    rw [LockCall.exec, posixUnblockLock] at h
    split_ifs at h
    · cases h
      exact ⟨hinv.lists, hinv.disjoint⟩
    · cases h
      exact hinv

lemma filesOk_of_reach (hP : ∀ s c, P s c → c.Lawful s)
    (h : LockReach P s) : FilesOk s := by
  induction h with
  | empty m => exact filesOk_empty m
  | call c _ hc hexec ih => exact filesOk_exec ih (hP _ c hc) hexec

/-- In every list the locks of each owner stand together, sorted, disjoint and merged, and locks of
two owners that overlap are both for reading. A call that succeeds and is not only a test gives the
owner the type of the request on exactly its bytes, and changes no other owner. -/
theorem posix_lock_lists (h : LockReach LockCall.Lawful s) :
    (∀ i, ListOk s.lock (s.flock i)) ∧ ∀ inode request f newFl newFl2 s' res,
        (LockCall.lock inode request f newFl newFl2).Lawful s →
        (LockCall.lock inode request f newFl newFl2).exec s = some (s', res) →
        TypesAfter s s' inode f res :=
  have hinv := filesOk_of_reach (fun _ _ hc => hc) h
  ⟨hinv.lists, fun _ _ _ _ _ _ _ hlaw hexec => (lock_types hinv hlaw hexec).2⟩

lemma LockReach.next (h : LockReach P s) (hc : P s c) (hs : (c.exec s).isSome = true) :
    LockReach P ((c.exec s).get hs).1 :=
  h.call c hc (Option.some_get hs).symm

omit [DecidableEq O] in
lemma lawful_lock {s : LockState Unit O} {new new2 : ℕ}
    (hr : 0 ≤ f.start ∧ f.start ≤ f.stop ∧ f.stop ≤ offsetMax)
    (hfresh : request ∉ s.flock () ∧ new ∉ s.flock () ∧ new2 ∉ s.flock () ∧ new ≠ request
      ∧ new2 ≠ request ∧ new ≠ new2) :
    (LockCall.lock () request f (some new) (some new2)).Lawful s := by
  obtain ⟨h1, h2, h3, h4, h5, h6⟩ := hfresh
  refine ⟨⟨hr.1, hr.2.1, hr.2.2⟩, fun _ => ⟨h1, fun p hp => ?_, fun p hp => ?_, fun p hp hp' => ?_⟩⟩
  · cases hp
    exact ⟨h2, h4⟩
  · cases hp
    exact ⟨h3, h5⟩
  · cases hp
    cases hp'
    exact h6 rfl

theorem posix_lock_lists_split :
    ∃ s s' : LockState Unit ℕ, LockReach LockCall.Lawful s
      ∧ (s.flock ()).map (fun p => ((s.lock p).owner, (s.lock p).start, (s.lock p).stop)) =
        [(1, 0, 2), (1, 5, 9), (2, 5, 20)] ∧ ListOk s.lock (s.flock ())
      ∧ lockTypeAt s'.lock (s'.flock ()) 1 3 = some .wrlck
      ∧ lockTypeAt s'.lock (s'.flock ()) 1 4 = none := by
  have h0 : LockReach LockCall.Lawful (LockState.empty (I := Unit) fun _ =>
      (⟨0, .unlck, 0, 0, false, false, false⟩ : FileLock ℕ)) := .empty _
  have h1 := h0.next (c := .lock () 0 ⟨1, .rdlck, 0, 9, false, false, false⟩ (some 1) (some 2))
    (lawful_lock (by decide) (by decide +kernel)) (by decide +kernel)
  have h2 := h1.next (c := .lock () 0 ⟨2, .rdlck, 5, 20, false, false, false⟩ (some 3) (some 4))
    (lawful_lock (by decide) (by decide +kernel)) (by decide +kernel)
  have h3 := h2.next (c := .lock () 0 ⟨1, .unlck, 3, 4, false, false, false⟩ (some 5) (some 6))
    (lawful_lock (by decide) (by decide +kernel)) (by decide +kernel)
  obtain ⟨hlists, htypes⟩ := posix_lock_lists h3
  have hcall := htypes () 0 ⟨1, .wrlck, 3, 3, false, false, false⟩ (some 7) (some 8) _ .ok
    (lawful_lock (by decide) (by decide +kernel)) (Option.some_get (by decide +kernel)).symm
  exact ⟨_, _, h3, by decide +kernel, hlists (), (hcall.owner 3).trans (by decide +kernel),
    (hcall.owner 4).trans (by decide +kernel)⟩

/-- A test for a conflict succeeds and locks nothing. -/
theorem posix_lock_access_unlocked :
    ∃ s s' : LockState Unit ℕ, LockReach LockCall.Lawful s
      ∧ (LockCall.lock () 0 ⟨1, .rdlck, 0, 9, false, true, false⟩ (some 1) (some 2)).Lawful s
      ∧ (LockCall.lock () 0 ⟨1, .rdlck, 0, 9, false, true, false⟩ (some 1) (some 2)).exec s =
        some (s', .ok) ∧ lockTypeAt s'.lock (s'.flock ()) 1 5 = none :=
  ⟨.empty fun _ => ⟨0, .unlck, 0, 0, false, false, false⟩, _, .empty _,
    lawful_lock (by decide) (by decide), rfl, by decide⟩

omit [DecidableEq I] in
lemma ListOk.lockTypeAt_mem {L : List ℕ} {p : ℕ} {x : ℤ} (h : ListOk m L) (hp : p ∈ L)
    (h1 : (m p).start ≤ x) (h2 : x ≤ (m p).stop) :
    lockTypeAt m L (m p).owner x = some (m p).type := by
  obtain ⟨A, G, B, hown⟩ := h.owners (m p).owner
  refine hown.lockTypeAt_iff.2 ⟨m p, mem_map_of_mem ?_, rfl, h1, h2⟩
  by_contra hG
  rw [hown.list] at hp
  exact hown.others p (by simp only [mem_append] at hp ⊢; tauto) rfl

omit [DecidableEq I] in
lemma posixLocksConflict_iff {g : FileLock O} : posixLocksConflict f g = true ↔ f.owner ≠ g.owner
    ∧ (g.start ≤ f.stop ∧ f.start ≤ g.stop) ∧ (g.type = .wrlck ∨ f.type = .wrlck) := by
  simp [posixLocksConflict, posixSameOwner, locksOverlap, locksConflict, and_assoc]

/-- `posix_test_lock` returns `F_UNLCK` where no other owner holds a byte of the range against the
type asked for, and else a lock of an owner who does. -/
theorem posixTestLock_spec (h : LockReach LockCall.Lawful s) (inode : I) (hf : RangeOk f) :
    let g := posixTestLock s inode f
    if g.type = .unlck then ∀ o x τ, o ≠ f.owner → f.start ≤ x → x ≤ f.stop →
      lockTypeAt s.lock (s.flock inode) o x = some τ → τ ≠ .wrlck ∧ f.type ≠ .wrlck
    else g.owner ≠ f.owner ∧ (g.type = .wrlck ∨ f.type = .wrlck) ∧ ∃ x, f.start ≤ x ∧ x ≤ f.stop
      ∧ lockTypeAt s.lock (s.flock inode) g.owner x = some g.type := by
  have hok := (filesOk_of_reach (fun _ _ hc => hc) h).lists inode
  intro g
  cases hfind : (s.flock inode).find? fun cfl => posixLocksConflict f (s.lock cfl) with
  | some p =>
    have hg : g = s.lock p := by simp only [g, posixTestLock, hfind]
    have hp := mem_of_find?_eq_some hfind
    have hlock := hok.lockOk hp
    have hconf := find?_some hfind
    obtain ⟨hne, hover, htype⟩ := posixLocksConflict_iff.1 hconf
    rw [hg, if_neg hlock.held]
    exact ⟨hne.symm, htype, max f.start (s.lock p).start, le_max_left _ _, max_le hf.le hover.1,
      hok.lockTypeAt_mem hp (le_max_right _ _) (max_le hover.2 hlock.le)⟩
  | none =>
    have hg : g.type = .unlck := by simp only [g, posixTestLock, hfind]
    rw [if_pos hg]
    intro o x τ ho h1 h2 hτ
    obtain ⟨p, hp, rfl⟩ := Option.map_eq_some_iff.1 hτ
    have hcond := find?_some hp
    rw [decide_eq_true_eq] at hcond
    obtain ⟨rfl, hp1, hp2⟩ := hcond
    have hfree := find?_eq_none.1 hfind p (mem_of_find?_eq_some hp)
    rw [posixLocksConflict_iff] at hfree
    exact not_or.1 fun htype => hfree ⟨ho.symm, ⟨hp1.trans h2, h1.trans hp2⟩, htype⟩

theorem posixTestLock_spec_held : ∃ s : LockState Unit ℕ, LockReach LockCall.Lawful s
    ∧ ∃ x, 5 ≤ x ∧ x ≤ 20 ∧ lockTypeAt s.lock (s.flock ()) 1 x = some .wrlck := by
  have h0 : LockReach LockCall.Lawful (LockState.empty (I := Unit) fun _ =>
      (⟨0, .unlck, 0, 0, false, false, false⟩ : FileLock ℕ)) := .empty _
  have h1 := h0.next (c := .lock () 0 ⟨1, .wrlck, 0, 9, false, false, false⟩ (some 1) (some 2))
    (lawful_lock (by decide) (by decide)) rfl
  exact ⟨_, h1, (posixTestLock_spec h1 () (f := ⟨2, .rdlck, 5, 20, false, false, false⟩)
    ⟨by decide, by decide, by decide⟩).2.2⟩

end

end LinuxKernel.Fs
