import LinuxKernel.Proofs.LockEdit
import Mathlib.Data.List.Nodup
import Mathlib.Data.List.TakeDrop

/-!
# The locks of an inode

The loop of `__posix_lock_file` passes the locks before the request, notes one that reaches into it
from the left, and then only deletes, until it comes to a lock behind the request or one that sticks
out on the right. So the new list of the owner is an `Edit` of the old one.
-/

namespace LinuxKernel.Fs

open Function List

variable {I O : Type*} {m : ℕ → FileLock O} {fl request : ℕ} {w w' : Walk I O}
  {B D lft mid N T : List ℕ} {s e : ℤ}

@[simp] lemma locksDeleteBlock_lock (s : LockState I O) (w : ℕ) :
    (locksDeleteBlock s w).lock = s.lock := rfl

@[simp] lemma locksDeleteBlock_flock (s : LockState I O) (w : ℕ) :
    (locksDeleteBlock s w).flock = s.flock := rfl

lemma foldl_locksDeleteBlock : ∀ (l : List ℕ) (s : LockState I O),
    (l.foldl locksDeleteBlock s).lock = s.lock ∧ (l.foldl locksDeleteBlock s).flock = s.flock
  | [], _ => ⟨rfl, rfl⟩
  | w :: l, s => foldl_locksDeleteBlock l (locksDeleteBlock s w)

@[simp] lemma locksWakeUpBlocks_lock (s : LockState I O) (fl : ℕ) :
    (locksWakeUpBlocks s fl).lock = s.lock := (foldl_locksDeleteBlock _ s).1

@[simp] lemma locksWakeUpBlocks_flock (s : LockState I O) (fl : ℕ) :
    (locksWakeUpBlocks s fl).flock = s.flock := (foldl_locksDeleteBlock _ s).2

lemma widenStart_spec (h : request ≠ fl) :
    widenStart m fl request request = { m request with start := min (m request).start (m fl).start }
      ∧ widenStart m fl request fl = { m fl with start := min (m request).start (m fl).start }
      ∧ ∀ p, p ≠ fl → p ≠ request → widenStart m fl request p = m p := by
  rw [widenStart]
  split_ifs with hlt
  · rw [setStart, update_self, update_of_ne h, min_eq_left hlt.le]
    exact ⟨rfl, rfl, fun p hp _ => update_of_ne hp _ _⟩
  · rw [setStart, update_self, update_of_ne h.symm, min_eq_right (not_lt.mp hlt)]
    exact ⟨rfl, rfl, fun p _ hp => update_of_ne hp _ _⟩

lemma widenStop_spec (h : request ≠ fl) :
    widenStop m fl request request = { m request with stop := max (m request).stop (m fl).stop }
      ∧ widenStop m fl request fl = { m fl with stop := max (m request).stop (m fl).stop }
      ∧ ∀ p, p ≠ fl → p ≠ request → widenStop m fl request p = m p := by
  rw [widenStop]
  split_ifs with hlt
  · rw [setStop, update_self, update_of_ne h, max_eq_left hlt.le]
    exact ⟨rfl, rfl, fun p hp _ => update_of_ne hp _ _⟩
  · rw [setStop, update_self, update_of_ne h.symm, max_eq_right (not_lt.mp hlt)]
    exact ⟨rfl, rfl, fun p _ hp => update_of_ne hp _ _⟩

lemma widen_spec (h : request ≠ fl) :
    widen m fl request request = { m request with
          start := min (m request).start (m fl).start, stop := max (m request).stop (m fl).stop }
      ∧ widen m fl request fl = { m fl with
          start := min (m request).start (m fl).start, stop := max (m request).stop (m fl).stop }
      ∧ ∀ p, p ≠ fl → p ≠ request → widen m fl request p = m p := by
  obtain ⟨hr, hf, ho⟩ := widenStart_spec (m := m) h
  obtain ⟨hr', hf', ho'⟩ := widenStop_spec (m := widenStart m fl request) h
  rw [hr, hf] at hr' hf'
  exact ⟨hr', hf', fun p h1 h2 => (ho' p h1 h2).trans (ho p h1 h2)⟩

section

variable {w w' : Walk I O} {G B T mid : List ℕ} {f : ℕ} {e : ℤ}

/-- The part `G` of the list that the loop has before it: locks of the owner of the request, up to
the locks `B` of the next owner. -/
structure Segment (w : Walk I O) (G B : List ℕ) : Prop where
  nodup : (G ++ B).Nodup
  fresh : w.request ∉ G ++ B
  owner : ∀ f ∈ G, (w.st.lock f).owner = (w.st.lock w.request).owner
  others : ∀ b, B.head? = some b → (w.st.lock b).owner ≠ (w.st.lock w.request).owner
  sorted : G.Pairwise fun f g => Before (w.st.lock f) (w.st.lock g)
  locks : ∀ f ∈ G, LockOk (w.st.lock f)

lemma Segment.tail (h : Segment w (f :: G) B) (hr : w'.request ∉ G ++ B)
    (hm : ∀ p ∈ G ++ B, w'.st.lock p = w.st.lock p)
    (ho : (w'.st.lock w'.request).owner = (w.st.lock w.request).owner) : Segment w' G B := by
  have hG : ∀ g ∈ G, w'.st.lock g = w.st.lock g := fun g hg => hm g (mem_append_left _ hg)
  refine ⟨(nodup_cons.mp h.nodup).2, hr, fun g hg => ?_, fun b hb => ?_, ?_, fun g hg => ?_⟩
  · rw [hG g hg, ho]
    exact h.owner g (mem_cons_of_mem _ hg)
  · rw [hm b (mem_append_right _ (List.mem_of_mem_head? hb)), ho]
    exact h.others b hb
  · refine (pairwise_cons.mp h.sorted).2.imp_of_mem fun ha hb hab => ?_
    rw [hG _ ha, hG _ hb]
    exact hab
  · rw [hG g hg]
    exact h.locks g (mem_cons_of_mem _ hg)

/-- The loop has come to a lock behind the request, or to one that sticks out of it on the right. -/
def Ending (m : ℕ → FileLock O) (t : LockType) (e : ℤ) (T : List ℕ) (right : Option ℕ) : Prop :=
  (right = none ∧ ∀ f ∈ T, e < (m f).start ∧ ((m f).type = t → e + 1 < (m f).start)) ∨
    ∃ f T', T = f :: T' ∧ right = some f ∧ (m f).type ≠ t ∧ (m f).start ≤ e ∧ e < (m f).stop

lemma Ending.congr {m' : ℕ → FileLock O} {t : LockType} {right : Option ℕ}
    (h : Ending m t e T right) (hm : ∀ p ∈ T, m p = m' p) : Ending m' t e T right := by
  rcases h with ⟨hnone, hafter⟩ | ⟨g, T', rfl, hright, hty, h1, h2⟩
  · exact .inl ⟨hnone, fun g hg => by rw [← hm g hg]; exact hafter g hg⟩
  · rw [hm g mem_cons_self] at hty h1 h2
    exact .inr ⟨g, T', rfl, hright, hty, h1, h2⟩

lemma Segment.after {t : LockType} (h : Segment w (f :: G) B)
    (hlt : e < (w.st.lock f).start)
    (hty : (w.st.lock f).type = t → e + 1 < (w.st.lock f).start) :
    Ending w.st.lock t e (f :: G) none := by
  refine .inl ⟨rfl, fun g hg => ?_⟩
  rcases mem_cons.mp hg with rfl | hg
  · exact ⟨hlt, hty⟩
  · have hb := ((pairwise_cons.mp h.sorted).1 g hg).1
    have := (h.locks f mem_cons_self).le
    exact ⟨by omega, fun _ => by omega⟩

/-- What the loop does once the request has its place: it deletes the locks `mid`. -/
structure Consumed (w w' : Walk I O) (mid T : List ℕ) (e : ℤ) : Prop where
  request : w'.request = w.request
  added : w'.added = true
  left : w'.left = w.left
  flock : w'.st.flock = w.st.flock
  frame : ∀ p, p ≠ w.request → p ∉ mid → w'.st.lock p = w.st.lock p
  lock : w'.st.lock w.request = { w.st.lock w.request with stop := e }
  le : (w.st.lock w.request).stop ≤ e
  mid_le : ∀ f ∈ mid, (w.st.lock f).stop ≤ e
  high : ∀ x, (w.st.lock w.request).stop < x → x ≤ e →
    Covers (mid.map w.st.lock) x (w.st.lock w.request).type
  ending : Ending w.st.lock (w.st.lock w.request).type e T w'.right

lemma Consumed.cons {w₁ : Walk I O} (h : Consumed w₁ w' mid T e)
    (hseg : Segment w (f :: (mid ++ T)) B) (hr : w₁.request = w.request) (hleft : w₁.left = w.left)
    (hflock : w₁.st.flock = w.st.flock)
    (hm : ∀ p, p ≠ w.request → p ≠ f → w₁.st.lock p = w.st.lock p) {e₁ : ℤ}
    (hlock : w₁.st.lock w.request = { w.st.lock w.request with stop := e₁ })
    (hle : (w.st.lock w.request).stop ≤ e₁) (hf : (w.st.lock f).stop ≤ e₁)
    (hhigh : ∀ x, (w.st.lock w.request).stop < x → x ≤ e₁ →
      Covers [w.st.lock f] x (w.st.lock w.request).type) :
    Consumed w w' (f :: mid) T e := by
  have hsame : ∀ p ∈ mid ++ T, w₁.st.lock p = w.st.lock p := by
    intro p hp
    refine hm p (fun he => hseg.fresh ?_) (fun he => (nodup_cons.mp hseg.nodup).1 ?_)
    · rw [← he]
      exact mem_append_left _ (mem_cons_of_mem _ hp)
    · rw [← he]
      exact mem_append_left _ hp
  have hmid : mid.map w₁.st.lock = mid.map w.st.lock :=
    map_congr_left fun p hp => hsame p (mem_append_left _ hp)
  have hT : ∀ p ∈ T, w₁.st.lock p = w.st.lock p := fun p hp => hsame p (mem_append_right _ hp)
  have he₁ : e₁ ≤ e := by
    have := h.le
    rw [hr, hlock] at this
    exact this
  refine ⟨h.request.trans hr, h.added, h.left.trans hleft, h.flock.trans hflock,
    fun p h1 h2 => ?_, ?_, hle.trans he₁, fun g hg => ?_, fun x h1 h2 => ?_, ?_⟩
  · obtain ⟨hpf, hpm⟩ := not_or.mp fun hor => h2 (mem_cons.mpr hor)
    rw [h.frame p (by rw [hr]; exact h1) hpm, hm p h1 hpf]
  · have := h.lock
    rw [hr, hlock] at this
    exact this
  · rcases mem_cons.mp hg with rfl | hg
    · exact hf.trans he₁
    · rw [← hsame g (mem_append_left _ hg)]
      exact h.mid_le g hg
  · rw [map_cons, ← singleton_append, covers_append]
    by_cases hx : x ≤ e₁
    · exact .inl (hhigh x h1 hx)
    · have := h.high x
      rw [hr, hlock, hmid] at this
      exact .inr (this (not_le.mp hx) h2)
  · have := h.ending
    rw [hr, hlock] at this
    exact this.congr hT

/-- What the loop does from the first lock on that reaches into the request, but not from its left
side: the locks `mid` are gone, but for the one that has become the request. -/
structure Placed (w w' : Walk I O) (mid N T : List ℕ) (s e : ℤ) : Prop where
  left : w'.left = w.left
  flock : w'.st.flock = w.st.flock
  frame : ∀ p, p ≠ w.request → p ∉ mid → w'.st.lock p = w.st.lock p
  type : (w'.st.lock w'.request).type = (w.st.lock w.request).type
  owner : (w'.st.lock w'.request).owner = (w.st.lock w.request).owner
  start : (w'.st.lock w'.request).start = s
  stop : (w'.st.lock w'.request).stop = e
  new : (w'.added = false ∧ N = [] ∧ mid = [] ∧ w'.request = w.request ∧ w'.st = w.st) ∨
    (w'.added = true ∧ (w.st.lock w.request).type ≠ .unlck ∧ N = [w'.request] ∧ w'.request ∈ mid) ∨
    (w'.added = true ∧ (w.st.lock w.request).type = .unlck ∧ N = [] ∧ w'.request = w.request)
  start_le : s ≤ (w.st.lock w.request).start
  le_stop : (w.st.lock w.request).stop ≤ e
  mid_start : ∀ f ∈ mid, s ≤ (w.st.lock f).start
  mid_le : ∀ f ∈ mid, (w.st.lock f).stop ≤ e
  low : ∀ x, s ≤ x → x < (w.st.lock w.request).start →
    Covers (mid.map w.st.lock) x (w.st.lock w.request).type
  high : ∀ x, (w.st.lock w.request).stop < x → x ≤ e →
    Covers (mid.map w.st.lock) x (w.st.lock w.request).type
  ending : Ending w.st.lock (w.st.lock w.request).type e T w'.right
  noted : (w.st.lock w.request).type = .unlck → w'.added = false → w'.right = none

lemma placed_stop (hadd : w.added = false) (hright : w.right = none)
    (h : Ending w.st.lock (w.st.lock w.request).type (w.st.lock w.request).stop T none) :
    Placed w w [] [] T (w.st.lock w.request).start (w.st.lock w.request).stop :=
  ⟨rfl, rfl, fun _ _ _ => rfl, rfl, rfl, rfl, rfl, .inl ⟨hadd, rfl, rfl, rfl, rfl⟩, le_rfl, le_rfl,
    forall_mem_nil _, forall_mem_nil _,
    fun x h1 h2 => by omega, fun x h1 h2 => by omega, by rw [hright]; exact h, fun _ _ => hright⟩

lemma Consumed.placed (h : Consumed w w' mid T e)
    (hun : (w.st.lock w.request).type = .unlck)
    (hstart : ∀ f ∈ mid, (w.st.lock w.request).start ≤ (w.st.lock f).start) :
    Placed w w' mid [] T (w.st.lock w.request).start e := by
  refine ⟨h.left, h.flock, h.frame, ?_, ?_, ?_, ?_, .inr (.inr ⟨h.added, hun, rfl, h.request⟩),
    le_rfl, h.le, hstart, h.mid_le, fun x h1 h2 => by omega, h.high, h.ending, fun _ hadd => ?_⟩
  · rw [h.request, h.lock]
  · rw [h.request, h.lock]
  · rw [h.request, h.lock]
  · rw [h.request, h.lock]
  · rw [h.added] at hadd
    exact Bool.noConfusion hadd

/-- What the whole loop does: it passes the locks `D`, notes a lock on the left, and places the
request. The lock on the left may be the one on the right as well. -/
structure Looped (w w' : Walk I O) (D lft mid N T : List ℕ) (s e : ℤ) : Prop where
  before : ∀ d ∈ D, (w.st.lock d).stop < (w.st.lock w.request).start
    ∧ ((w.st.lock d).type = (w.st.lock w.request).type →
      (w.st.lock d).stop + 1 < (w.st.lock w.request).start)
  placed : ∃ w₁, w₁.st = w.st ∧ w₁.request = w.request ∧ Placed w₁ w' mid N T s e
  left : (w'.left = none ∧ lft = [] ∧ ∀ f, w'.right = some f →
      (w.st.lock w.request).start ≤ (w.st.lock f).start) ∨
    (∃ l, w'.left = some l ∧ lft = [l] ∧ (w.st.lock l).type ≠ (w.st.lock w.request).type
      ∧ (w.st.lock l).start < (w.st.lock w.request).start
      ∧ (w.st.lock w.request).start ≤ (w.st.lock l).stop
      ∧ (w.st.lock l).stop ≤ (w.st.lock w.request).stop) ∨
    ∃ f T', w'.left = some f ∧ w'.right = some f ∧ lft = [] ∧ mid = [] ∧ T = f :: T'
      ∧ (w.st.lock f).start < (w.st.lock w.request).start
  noted : (w.st.lock w.request).type = .unlck → w'.added = false → lft = [] ∧ w'.left = none

lemma Looped.cons (h : Looped w w' D lft mid N T s e)
    (hlt : (w.st.lock f).stop < (w.st.lock w.request).start)
    (hty : (w.st.lock f).type = (w.st.lock w.request).type →
      (w.st.lock f).stop + 1 < (w.st.lock w.request).start) :
    Looped w w' (f :: D) lft mid N T s e := by
  refine ⟨fun d hd => ?_, h.placed, h.left, h.noted⟩
  rcases mem_cons.mp hd with rfl | hd
  · exact ⟨hlt, hty⟩
  · exact h.before d hd

variable [DecidableEq O]

lemma Segment.sameOwner (h : Segment w (f :: G) B) :
    ¬ posixSameOwner (w.st.lock w.request) (w.st.lock f) = false := by
  rw [posixSameOwner, decide_eq_false_iff_not, not_not]
  exact (h.owner f mem_cons_self).symm

lemma processLocks_others (h : Segment w [] B) (prev : List ℕ) :
    processLocks prev B w = (w, prev, B) := by
  cases B with
  | nil => rfl
  | cons b B =>
    have hne : posixSameOwner (w.st.lock w.request) (w.st.lock b) = false :=
      decide_eq_false fun he => h.others b rfl he.symm
    rw [processLocks, if_pos hne]

lemma processLocks_added : ∀ (G prev : List ℕ) (w : Walk I O), Segment w G B → w.added = true →
    w.right = none → (∀ f ∈ G, (w.st.lock w.request).start ≤ (w.st.lock f).start) →
    ∃ mid T w' e, G = mid ++ T ∧ processLocks prev (G ++ B) w = (w', prev, T ++ B)
      ∧ Consumed w w' mid T e
  | [], prev, w, h, hadd, hright, _ => by
    refine ⟨[], [], w, (w.st.lock w.request).stop, rfl, processLocks_others h prev, rfl, hadd, rfl,
      rfl, fun _ _ _ => rfl, rfl, le_rfl, forall_mem_nil _, fun x h1 h2 => by omega,
      .inl ⟨hright, forall_mem_nil _⟩⟩
  | f :: G, prev, w, h, hadd, hright, hstart => by
    have hf := h.locks f mem_cons_self
    have hsf := hstart f mem_cons_self
    have hle := hf.le
    have hne : w.request ≠ f := fun he => h.fresh (he ▸ mem_cons_self)
    have hrest : w.request ∉ G ++ B := fun hmem => h.fresh (mem_cons_of_mem _ hmem)
    have hstop : ∀ T, Ending w.st.lock (w.st.lock w.request).type
        (w.st.lock w.request).stop T w.right →
        Consumed w w [] T (w.st.lock w.request).stop := fun T hend =>
      ⟨rfl, hadd, rfl, rfl, fun _ _ _ => rfl, rfl, le_rfl, forall_mem_nil _,
        fun x h1 h2 => by omega, hend⟩
    rw [cons_append, processLocks]
    simp only [if_neg h.sameOwner]
    by_cases hty : (w.st.lock w.request).type = (w.st.lock f).type
    · rw [if_pos hty, if_neg (by omega)]
      by_cases hafter : (w.st.lock w.request).stop < (w.st.lock f).start - 1
      · rw [if_pos hafter]
        refine ⟨[], f :: G, w, _, rfl, rfl, hstop _ ?_⟩
        rw [hright]
        exact h.after (by omega) fun _ => by omega
      -- the lock is merged into the request and deleted
      rw [if_neg hafter, if_pos hadd]
      obtain ⟨hwr, -, hwo⟩ := widen_spec (m := w.st.lock) hne
      rw [min_eq_left hsf] at hwr
      set w₁ : Walk I O :=
        Walk.delete { w with st := { w.st with lock := widen w.st.lock f w.request } } f with hw₁
      have hlock : w₁.st.lock = widen w.st.lock f w.request := by
        rw [hw₁, Walk.delete, locksWakeUpBlocks_lock]
      have hm : ∀ p, p ≠ w.request → p ≠ f → w₁.st.lock p = w.st.lock p := fun p h1 h2 => by
        rw [hlock, hwo p h2 h1]
      have hreq : w₁.st.lock w.request = { w.st.lock w.request with
          stop := max (w.st.lock w.request).stop (w.st.lock f).stop } := by rw [hlock, hwr]
      have hG : ∀ p ∈ G ++ B, w₁.st.lock p = w.st.lock p := fun p hp =>
        hm p (fun he => hrest (he ▸ hp)) fun he => (nodup_cons.mp h.nodup).1 (he ▸ hp)
      have hseg : Segment w₁ G B := h.tail hrest hG (by
        show (w₁.st.lock w.request).owner = _
        rw [hreq])
      obtain ⟨mid, T, w', e, rfl, hcall, hcons⟩ :=
        processLocks_added G prev w₁ hseg hadd hright (by
        intro g hg
        show (w₁.st.lock w.request).start ≤ _
        rw [hreq, hG g (mem_append_left _ hg)]
        exact hstart g (mem_cons_of_mem _ hg))
      refine ⟨f :: mid, T, w', e, rfl, hcall, hcons.cons h rfl rfl ?_ hm hreq (le_max_left _ _)
        (le_max_right _ _) fun x h1 h2 => ?_⟩
      · rw [hw₁, Walk.delete, locksWakeUpBlocks_flock]
      · exact ⟨_, mem_singleton_self _, hty.symm, by omega, by omega⟩
    · rw [if_neg hty, if_neg (by omega)]
      by_cases hafter : (w.st.lock w.request).stop < (w.st.lock f).start
      · rw [if_pos hafter]
        refine ⟨[], f :: G, w, _, rfl, rfl, hstop _ ?_⟩
        rw [hright]
        exact h.after hafter fun he => absurd he.symm hty
      rw [if_neg hafter]
      have hnote : w.note f = w := by
        have hor : (w.added || decide ((w.st.lock w.request).type = .unlck)) = w.added := by
          rw [hadd, Bool.true_or]
        rw [Walk.note, if_neg (by omega), hor]
      by_cases hout : (w.st.lock w.request).stop < (w.st.lock f).stop
      · rw [if_pos hout, hnote]
        refine ⟨[], f :: G, _, (w.st.lock w.request).stop, rfl, rfl, rfl, hadd, rfl, rfl,
          fun _ _ _ => rfl, rfl, le_rfl, forall_mem_nil _,
          fun x h1 h2 => by omega, .inr ⟨f, G, rfl, rfl, fun he => hty he.symm, by omega, hout⟩⟩
      -- the lock is covered by the request and deleted
      rw [if_neg hout, if_pos hsf, hnote, if_pos hadd]
      have hlock : (w.delete f).st.lock = w.st.lock := locksWakeUpBlocks_lock _ _
      have hseg : Segment (w.delete f) G B := h.tail hrest (fun p _ => by rw [hlock]) (by
        rw [hlock]
        rfl)
      obtain ⟨mid, T, w', e, rfl, hcall, hcons⟩ :=
        processLocks_added G prev (w.delete f) hseg hadd
        hright (by
          intro g hg
          rw [hlock]
          exact hstart g (mem_cons_of_mem _ hg))
      refine ⟨f :: mid, T, w', e, rfl, hcall, hcons.cons h rfl rfl (locksWakeUpBlocks_flock _ _)
        (fun p _ _ => by rw [hlock]) (by rw [hlock]) le_rfl (not_lt.mp hout)
        fun x h1 h2 => by omega⟩

lemma placed_adopt {w₁ : Walk I O} {prev : List ℕ} (h : Segment w (f :: G) B)
    (hheld : (w.st.lock w.request).type ≠ .unlck) (hr : w₁.request = f) (hadd : w₁.added = true)
    (hleft : w₁.left = w.left) (hright : w₁.right = none) (hflock : w₁.st.flock = w.st.flock)
    (hm : ∀ p, p ≠ w.request → p ≠ f → w₁.st.lock p = w.st.lock p) (s₁ e₁ : ℤ)
    (hlock : w₁.st.lock f = { w.st.lock f with
      type := (w.st.lock w.request).type, start := s₁, stop := e₁ })
    (hs : s₁ ≤ (w.st.lock w.request).start) (he : (w.st.lock w.request).stop ≤ e₁)
    (hfs : s₁ ≤ (w.st.lock f).start) (hfe : (w.st.lock f).stop ≤ e₁)
    (hlow : ∀ x, s₁ ≤ x → x < (w.st.lock w.request).start →
      Covers [w.st.lock f] x (w.st.lock w.request).type)
    (hhigh : ∀ x, (w.st.lock w.request).stop < x → x ≤ e₁ →
      Covers [w.st.lock f] x (w.st.lock w.request).type) :
    ∃ mid N T w' s e, f :: G = mid ++ T
      ∧ processLocks (prev ++ [f]) (G ++ B) w₁ = (w', prev ++ N, T ++ B)
      ∧ Placed w w' mid N T s e := by
  have hfG : f ∉ G ++ B := (nodup_cons.mp h.nodup).1
  have hG : ∀ p ∈ G ++ B, w₁.st.lock p = w.st.lock p := fun p hp =>
    hm p (fun he => h.fresh (he ▸ mem_cons_of_mem _ hp)) fun he => hfG (he ▸ hp)
  have hseg : Segment w₁ G B := by
    refine h.tail (by rw [hr]; exact hfG) hG ?_
    rw [hr, hlock]
    exact h.owner f mem_cons_self
  have hlt : ∀ g ∈ G, s₁ ≤ (w.st.lock g).start := fun g hg => by
    have := ((pairwise_cons.mp h.sorted).1 g hg).1
    have := (h.locks f mem_cons_self).le
    omega
  obtain ⟨mid, T, w', e, rfl, hcall, hcons⟩ :=
    processLocks_added G (prev ++ [f]) w₁ hseg hadd hright
    (by
      intro g hg
      rw [hr, hlock, hG g (mem_append_left _ hg)]
      exact hlt g hg)
  have hmid : ∀ p ∈ mid, w₁.st.lock p = w.st.lock p := fun p hp =>
    hG p (mem_append_left _ (mem_append_left _ hp))
  have hT : ∀ p ∈ T, w₁.st.lock p = w.st.lock p := fun p hp =>
    hG p (mem_append_left _ (mem_append_right _ hp))
  have hreq : w'.request = f := hcons.request.trans hr
  have hlock' : w'.st.lock w'.request = { w.st.lock f with
      type := (w.st.lock w.request).type, start := s₁, stop := e } := by
    have := hcons.lock
    rw [hr, hlock] at this
    rw [hreq, this]
  have he₁ : e₁ ≤ e := by
    have := hcons.le
    rw [hr, hlock] at this
    exact this
  have hcover : ∀ x, Covers [w.st.lock f] x (w.st.lock w.request).type →
      Covers ((f :: mid).map w.st.lock) x (w.st.lock w.request).type := fun x hx => by
    rw [map_cons, ← singleton_append, covers_append]
    exact .inl hx
  refine ⟨f :: mid, [f], T, w', s₁, e, rfl, hcall, hcons.left.trans hleft, hcons.flock.trans hflock,
    fun p h1 h2 => ?_, ?_, ?_, ?_, ?_, .inr (.inl ⟨hcons.added, hheld, by rw [hreq], ?_⟩), hs,
    he.trans he₁, fun g hg => ?_, fun g hg => ?_, fun x h1 h2 => hcover x (hlow x h1 h2),
    fun x h1 h2 => ?_, ?_, fun hun => absurd hun hheld⟩
  · obtain ⟨hpf, hpm⟩ := not_or.mp fun hor => h2 (mem_cons.mpr hor)
    rw [hcons.frame p (by rw [hr]; exact hpf) hpm, hm p h1 hpf]
  · rw [hlock']
  · rw [hlock']
    exact h.owner f mem_cons_self
  · rw [hlock']
  · rw [hlock']
  · rw [hreq]
    exact mem_cons_self
  · rcases mem_cons.mp hg with rfl | hg
    · exact hfs
    · exact hlt g (mem_append_left _ hg)
  · rcases mem_cons.mp hg with rfl | hg
    · exact hfe.trans he₁
    · rw [← hmid g hg]
      exact hcons.mid_le g hg
  · by_cases hx : x ≤ e₁
    · exact hcover x (hhigh x h1 hx)
    · have := hcons.high x
      rw [hr, hlock, map_congr_left hmid] at this
      rw [map_cons, ← singleton_append, covers_append]
      exact .inr (this (not_le.mp hx) h2)
  · have := hcons.ending
    rw [hr, hlock] at this
    exact this.congr hT

omit [DecidableEq O] in
lemma Walk.note_added (hadd : w.added = false) (f : ℕ) :
    (w.note f).added = decide ((w.st.lock w.request).type = .unlck) := by
  show (w.added || decide _) = _
  rw [hadd, Bool.false_or]

omit [DecidableEq O] in
lemma placed_right (hadd : w.added = false)
    (hty : (w.st.lock f).type ≠ (w.st.lock w.request).type)
    (hreach : (w.st.lock f).start ≤ (w.st.lock w.request).stop)
    (hout : (w.st.lock w.request).stop < (w.st.lock f).stop) :
    Placed (w.note f) { w.note f with right := some f } [] [] (f :: G)
      (w.st.lock w.request).start (w.st.lock w.request).stop := by
  have hnote := w.note_added hadd f
  refine ⟨rfl, rfl, fun _ _ _ => rfl, rfl, rfl, rfl, rfl, ?_, le_rfl, le_rfl,
    forall_mem_nil _, forall_mem_nil _,
    fun x h1 h2 => absurd h1 (not_le.mpr h2), fun x h1 h2 => absurd h1 (not_lt.mpr h2),
    .inr ⟨f, G, rfl, rfl, hty, hreach, hout⟩, fun hun hf => ?_⟩
  · by_cases hun : (w.st.lock w.request).type = .unlck
    · exact .inr (.inr ⟨hnote.trans (decide_eq_true hun), hun, rfl, rfl⟩)
    · exact .inl ⟨hnote.trans (decide_eq_false hun), rfl, rfl, rfl, rfl⟩
  · cases (hnote.trans (decide_eq_true hun)).symm.trans hf

omit [DecidableEq O] in
lemma Placed.of_note (h : Placed (w.note f) w' mid N T s e)
    (hle : (w.st.lock w.request).start ≤ (w.st.lock f).start) : Placed w w' mid N T s e :=
  { h with left := h.left.trans (if_neg (not_lt.mpr hle)) }

/-- The loop, from a lock on that neither comes before the request nor reaches into it from the
left. -/
lemma processLocks_placed (h : Segment w G B) (hadd : w.added = false) (hright : w.right = none)
    (htouch : ∀ f ∈ G, ((w.st.lock f).type ≠ (w.st.lock w.request).type →
        (w.st.lock w.request).start ≤ (w.st.lock f).start)
      ∧ ((w.st.lock f).type = (w.st.lock w.request).type →
        (w.st.lock w.request).start - 1 ≤ (w.st.lock f).stop)) (prev : List ℕ) :
    ∃ mid N T w' s e, G = mid ++ T ∧ processLocks prev (G ++ B) w = (w', prev ++ N, T ++ B)
      ∧ Placed w w' mid N T s e := by
  cases G with
  | nil =>
    refine ⟨[], [], [], w, _, _, rfl, ?_, placed_stop hadd hright (.inl ⟨rfl, forall_mem_nil _⟩)⟩
    rw [nil_append, append_nil, processLocks_others h]
  | cons f G =>
    have hf := (h.locks f mem_cons_self).le
    have hne : w.request ≠ f := fun he => h.fresh (he ▸ mem_cons_self)
    obtain ⟨hdiff, hsame⟩ := htouch f mem_cons_self
    rw [cons_append, processLocks]
    simp only [if_neg h.sameOwner]
    by_cases hty : (w.st.lock w.request).type = (w.st.lock f).type
    · have htouch' := hsame hty.symm
      rw [if_pos hty, if_neg (by omega)]
      by_cases hafter : (w.st.lock w.request).stop < (w.st.lock f).start - 1
      · rw [if_pos hafter]
        exact ⟨[], [], f :: G, w, _, _, rfl, by rw [append_nil]; rfl, placed_stop hadd hright
          (h.after (by omega) fun _ => by omega)⟩
      rw [if_neg hafter, hadd, if_neg Bool.false_ne_true]
      obtain ⟨-, hwf, hwo⟩ := widen_spec (m := w.st.lock) hne
      refine placed_adopt h (hty ▸ (h.locks f mem_cons_self).held) rfl rfl rfl hright rfl
        (fun p h1 h2 => hwo p h2 h1) (min (w.st.lock w.request).start (w.st.lock f).start)
        (max (w.st.lock w.request).stop (w.st.lock f).stop) ?_ (min_le_left _ _)
        (le_max_left _ _) (min_le_right _ _) (le_max_right _ _) (fun x h1 h2 => ?_)
        fun x h1 h2 => ?_
      · show widen w.st.lock f w.request f = _
        rw [hwf, hty]
      · exact ⟨_, mem_singleton_self _, hty.symm, by omega, by omega⟩
      · exact ⟨_, mem_singleton_self _, hty.symm, by omega, by omega⟩
    · have hs := hdiff fun he => hty he.symm
      rw [if_neg hty, if_neg (by omega)]
      by_cases hafter : (w.st.lock w.request).stop < (w.st.lock f).start
      · rw [if_pos hafter]
        exact ⟨[], [], f :: G, w, _, _, rfl, by rw [append_nil]; rfl, placed_stop hadd hright
          (h.after hafter fun he => absurd he.symm hty)⟩
      rw [if_neg hafter]
      by_cases hout : (w.st.lock w.request).stop < (w.st.lock f).stop
      · rw [if_pos hout]
        exact ⟨[], [], f :: G, _, _, _, rfl, by rw [append_nil]; rfl,
          (placed_right hadd (fun he => hty he.symm) (not_lt.mp hafter) hout).of_note hs⟩
      rw [if_neg hout, if_pos hs]
      by_cases hun : (w.st.lock w.request).type = .unlck
      · -- an unlock deletes the lock
        have hnote := (w.note_added hadd f).trans (decide_eq_true hun)
        have hlock : ((w.note f).delete f).st.lock = w.st.lock := locksWakeUpBlocks_lock _ _
        have hrest : w.request ∉ G ++ B := fun hmem => h.fresh (mem_cons_of_mem _ hmem)
        have hseg : Segment ((w.note f).delete f) G B :=
          h.tail hrest (fun p _ => by rw [hlock]) (by rw [hlock]; rfl)
        have hstart : ∀ g ∈ G, (w.st.lock w.request).start ≤ (w.st.lock g).start :=
          fun g hg => by
          have := ((pairwise_cons.mp h.sorted).1 g hg).1
          omega
        rw [if_pos hnote]
        obtain ⟨mid, T, w', e, rfl, hcall, hcons⟩ :=
          processLocks_added G prev _ hseg hnote hright
          (by rw [hlock]; exact hstart)
        have hseg' : Segment (w.note f) (f :: (mid ++ T)) B :=
          ⟨h.nodup, h.fresh, h.owner, h.others, h.sorted, h.locks⟩
        have hplaced := (hcons.cons hseg' rfl rfl (locksWakeUpBlocks_flock _ _)
          (fun p _ _ => by rw [hlock]; rfl) (by rw [hlock]; rfl) le_rfl (not_lt.mp hout)
          fun x h1 h2 => absurd h1 (not_lt.mpr h2)).placed hun fun g hg => by
            rcases mem_cons.mp hg with rfl | hg
            · exact hs
            · exact hstart g (mem_append_left _ hg)
        exact ⟨f :: mid, [], T, w', _, e, rfl, by rw [append_nil]; exact hcall,
          hplaced.of_note hs⟩
      · rw [if_neg (by rw [w.note_added hadd, decide_eq_false hun]; exact Bool.false_ne_true)]
        have hleft : (w.note f).left = w.left := if_neg (not_lt.mpr hs)
        refine placed_adopt h hun rfl rfl hleft hright (locksWakeUpBlocks_flock _ _)
          (fun p _ h2 => update_of_ne h2 _ _) (w.st.lock w.request).start
          (w.st.lock w.request).stop (update_self ..) le_rfl le_rfl hs
          (not_lt.mp hout) (fun x h1 h2 => absurd h1 (not_le.mpr h2))
          fun x h1 h2 => absurd h1 (not_lt.mpr h2)

lemma processLocks_spec : ∀ (G prev : List ℕ) (w : Walk I O), Segment w G B → w.added = false →
    w.left = none → w.right = none → ∃ D lft mid N T w' s e, G = D ++ lft ++ mid ++ T
      ∧ processLocks prev (G ++ B) w = (w', prev ++ (D ++ lft ++ N), T ++ B)
      ∧ Looped w w' D lft mid N T s e
  | [], prev, w, h, hadd, hleft, hright => by
    refine ⟨[], [], [], [], [], w, _, _, rfl, ?_, forall_mem_nil _,
      ⟨w, rfl, rfl, placed_stop hadd hright (.inl ⟨rfl, forall_mem_nil _⟩)⟩,
      .inl ⟨hleft, rfl, fun f hf => by rw [hright] at hf; cases hf⟩, fun _ _ => ⟨rfl, hleft⟩⟩
    rw [nil_append, processLocks_others h]
    simp
  | f :: G, prev, w, h, hadd, hleft, hright => by
    have hf := (h.locks f mem_cons_self).le
    have hrest : w.request ∉ G ++ B := fun hmem => h.fresh (mem_cons_of_mem _ hmem)
    by_cases hskip : (w.st.lock f).stop < (w.st.lock w.request).start
        ∧ ((w.st.lock f).type = (w.st.lock w.request).type →
          (w.st.lock f).stop + 1 < (w.st.lock w.request).start)
    · -- before the request
      have hcall : processLocks prev (f :: G ++ B) w = processLocks (prev ++ [f]) (G ++ B) w := by
        rw [cons_append, processLocks]
        simp only [if_neg h.sameOwner]
        split_ifs with hty h1 h2 h3 <;> first | rfl | (have hgap := hskip.2 hty.symm; omega) | omega
      obtain ⟨D, lft, mid, N, T, w', s, e, rfl, hres, hloop⟩ := processLocks_spec G (prev ++ [f]) w
        (h.tail hrest (fun _ _ => rfl) rfl) hadd hleft hright
      refine ⟨f :: D, lft, mid, N, T, w', s, e, rfl, ?_, hloop.cons hskip.1 hskip.2⟩
      rw [hcall, hres]
      simp
    · by_cases hin : (w.st.lock f).type ≠ (w.st.lock w.request).type
          ∧ (w.st.lock f).start < (w.st.lock w.request).start
      · -- a lock of another type that reaches into the request from the left
        obtain ⟨hty, hlt⟩ := hin
        have hstop : (w.st.lock w.request).start ≤ (w.st.lock f).stop :=
          not_lt.mp fun hlt' => hskip ⟨hlt', fun he => absurd he hty⟩
        have hleft' : (w.note f).left = some f := if_pos hlt
        have hadded := w.note_added hadd f
        rw [cons_append, processLocks]
        simp only [if_neg h.sameOwner, if_neg fun he => hty (Eq.symm he)]
        rw [if_neg (not_lt.mpr hstop)]
        by_cases hafter : (w.st.lock w.request).stop < (w.st.lock f).start
        · -- behind a request that ends before its start
          rw [if_pos hafter]
          exact ⟨[], [], [], [], f :: G, w, _, _, rfl, by simp, forall_mem_nil _,
            ⟨w, rfl, rfl, placed_stop hadd hright (h.after hafter fun he => absurd he hty)⟩,
            .inl ⟨hleft, rfl, fun g hg => by rw [hright] at hg; cases hg⟩, fun _ _ => ⟨rfl, hleft⟩⟩
        have hreach := not_lt.mp hafter
        rw [if_neg hafter]
        by_cases hout : (w.st.lock w.request).stop < (w.st.lock f).stop
        · -- which sticks out on the right as well
          rw [if_pos hout]
          refine ⟨[], [], [], [], f :: G, { w.note f with right := some f }, _, _, rfl, by simp,
            forall_mem_nil _, ⟨w.note f, rfl, rfl, placed_right hadd hty hreach hout⟩,
            .inr (.inr ⟨f, G, hleft', rfl, rfl, rfl, rfl, hlt⟩), fun hun hf => ?_⟩
          cases (hadded.trans (decide_eq_true hun)).symm.trans hf
        rw [if_neg hout, if_neg (not_le.mpr hlt)]
        have hseg : Segment (w.note f) G B := h.tail hrest (fun _ _ => rfl) rfl
        have hstart : ∀ g ∈ G, (w.st.lock w.request).start ≤ (w.st.lock g).start := fun g hg => by
          have := ((pairwise_cons.mp h.sorted).1 g hg).1
          omega
        have hgle : ∀ g ∈ G, (w.st.lock g).start ≤ (w.st.lock g).stop := fun g hg =>
          (h.locks g (mem_cons_of_mem _ hg)).le
        by_cases hun : (w.st.lock w.request).type = .unlck
        · obtain ⟨mid, T, w', e, rfl, hres, hcons⟩ :=
            processLocks_added G (prev ++ [f]) (w.note f)
            hseg (hadded.trans (decide_eq_true hun)) hright hstart
          refine ⟨[], [f], mid, [], T, w', _, e, rfl, by rw [hres]; simp,
            forall_mem_nil _, ⟨w.note f, rfl, rfl, hcons.placed hun
              fun g hg => hstart g (mem_append_left _ hg)⟩,
            .inr (.inl ⟨f, hcons.left.trans hleft', rfl, hty, hlt, hstop, not_lt.mp hout⟩),
            fun _ hf => ?_⟩
          rw [hcons.added] at hf
          exact Bool.noConfusion hf
        · obtain ⟨mid, N, T, w', s, e, rfl, hres, hplaced⟩ := processLocks_placed hseg
            (hadded.trans (decide_eq_false hun)) hright
            (fun g hg => ⟨fun _ => hstart g hg, fun _ => by
              have := hstart g hg
              have := hgle g hg
              show (w.st.lock w.request).start - 1 ≤ (w.st.lock g).stop
              omega⟩) (prev ++ [f])
          exact ⟨[], [f], mid, N, T, w', s, e, rfl, by rw [hres]; simp,
            forall_mem_nil _, ⟨w.note f, rfl, rfl, hplaced⟩,
            .inr (.inl ⟨f, hplaced.left.trans hleft', rfl, hty, hlt, hstop, not_lt.mp hout⟩),
            fun h' => absurd h' hun⟩
      · -- the request is placed here
        have htouch : ∀ g ∈ f :: G, ((w.st.lock g).type ≠ (w.st.lock w.request).type →
              (w.st.lock w.request).start ≤ (w.st.lock g).start)
            ∧ ((w.st.lock g).type = (w.st.lock w.request).type →
              (w.st.lock w.request).start - 1 ≤ (w.st.lock g).stop) := by
          intro g hg
          rcases mem_cons.mp hg with rfl | hg
          · refine ⟨fun hty => not_lt.mp fun hlt => hin ⟨hty, hlt⟩, fun hty => ?_⟩
            by_contra hlt
            exact hskip ⟨by omega, fun _ => by omega⟩
          have hb := ((pairwise_cons.mp h.sorted).1 g hg).1
          have hg' := (h.locks g (mem_cons_of_mem _ hg)).le
          by_cases hty : (w.st.lock f).type = (w.st.lock w.request).type
          · have : (w.st.lock w.request).start - 1 ≤ (w.st.lock f).stop := by
              by_contra hlt
              exact hskip ⟨by omega, fun _ => by omega⟩
            exact ⟨fun _ => by omega, fun _ => by omega⟩
          · have : (w.st.lock w.request).start ≤ (w.st.lock f).start :=
              not_lt.mp fun hlt => hin ⟨hty, hlt⟩
            exact ⟨fun _ => by omega, fun _ => by omega⟩
        obtain ⟨mid, N, T, w', s, e, heq, hres, hplaced⟩ :=
          processLocks_placed h hadd hright htouch prev
        refine ⟨[], [], mid, N, T, w', s, e, heq, hres, forall_mem_nil _,
          ⟨w, rfl, rfl, hplaced⟩, .inl ⟨hplaced.left.trans hleft, rfl, fun g hg => ?_⟩,
          fun _ _ => ⟨rfl, hplaced.left.trans hleft⟩⟩
        rcases hplaced.ending with ⟨hnone, -⟩ | ⟨g', T', rfl, hsome, hty, -⟩
        · rw [hnone] at hg
          cases hg
        rw [hsome] at hg
        cases hg
        refine (htouch g ?_).1 hty
        rw [heq]
        exact mem_append_right _ mem_cons_self

end

/-- What is left of a lock on the left of the request. -/
def FileLock.upTo (f : FileLock O) (x : ℤ) : FileLock O := { f with stop := x }

/-- What is left of a lock on the right of the request. -/
def FileLock.startingAt (f : FileLock O) (x : ℤ) : FileLock O := { f with start := x }

lemma Placed.eq_of_nil (h : Placed w w' [] N T s e) :
    s = (w.st.lock w.request).start ∧ e = (w.st.lock w.request).stop := by
  have hnil : ∀ x τ, ¬ Covers (([] : List ℕ).map w.st.lock) x τ :=
    fun x τ ⟨f, hf, _⟩ => absurd hf not_mem_nil
  constructor
  · by_contra hne
    exact hnil _ _ (h.low s le_rfl (lt_of_le_of_ne h.start_le hne))
  · by_contra hne
    exact hnil _ _ (h.high e (lt_of_le_of_ne h.le_stop (Ne.symm hne)) le_rfl)

lemma Looped.edit (h : Looped w w' D lft mid N T s e) (hseg : Segment w (D ++ lft ++ mid ++ T) B)
    (hle : (w.st.lock w.request).start ≤ (w.st.lock w.request).stop) :
    ∃ T', T = w'.right.toList ++ T' ∧ ∀ n : FileLock O, n.type = (w.st.lock w.request).type →
      n.start = s → n.stop = e →
      Edit (w.st.lock w.request).type (w.st.lock w.request).start (w.st.lock w.request).stop s e
        (D.map w.st.lock) ((lft ++ mid ++ w'.right.toList).map w.st.lock) (T'.map w.st.lock)
        (w'.left.toList.map fun l => (w.st.lock l).upTo (s - 1))
        (if (w.st.lock w.request).type = .unlck then [] else [n])
        (w'.right.toList.map fun f => (w.st.lock f).startingAt (e + 1)) := by
  obtain ⟨⟨st, r, l, rt, a⟩, rfl, rfl, hp⟩ := h.placed
  have hs : s ≤ (w.st.lock w.request).start := hp.start_le
  have he : (w.st.lock w.request).stop ≤ e := hp.le_stop
  have hlow : ∀ x, s ≤ x → x < (w.st.lock w.request).start →
      Covers (mid.map w.st.lock) x (w.st.lock w.request).type := hp.low
  have hmids : ∀ f ∈ mid, s ≤ (w.st.lock f).start := hp.mid_start
  have hmide : ∀ f ∈ mid, (w.st.lock f).stop ≤ e := hp.mid_le
  have hright : Ending w.st.lock (w.st.lock w.request).type e T w'.right := hp.ending
  obtain ⟨hDlm, hT, hDlmT⟩ := pairwise_append.mp hseg.sorted
  obtain ⟨-, -, hDm⟩ := pairwise_append.mp hDlm
  -- the first byte of a request that has grown to the left belongs to a lock it has absorbed
  have hgrown : s < (w.st.lock w.request).start → ∃ f ∈ mid, (w.st.lock f).start = s
      ∧ (w.st.lock f).type = (w.st.lock w.request).type := fun hlt => by
    obtain ⟨g, hg, hty, h1, -⟩ := hlow s le_rfl hlt
    obtain ⟨f, hf, rfl⟩ := mem_map.mp hg
    exact ⟨f, hf, le_antisymm h1 (hmids f hf), hty⟩
  have hleft : ∀ l, w'.left = some l → s = (w.st.lock w.request).start
      ∧ (w.st.lock l).type ≠ (w.st.lock w.request).type
      ∧ (w.st.lock l).start < s ∧ s ≤ (w.st.lock l).stop ∧ l ∈ lft ++ mid ++ w'.right.toList := by
    intro l hl
    rcases h.left with ⟨hnone, -⟩ | ⟨l', hl', rfl, hty, h1, h2, -⟩ | ⟨f, T', hf, hr, -, rfl, -, h1⟩
    · rw [hnone] at hl
      cases hl
    · rw [hl'] at hl
      cases hl
      -- the lock on the left ends before what the request has absorbed
      have hss : s = (w.st.lock w.request).start := by
        by_contra hne
        obtain ⟨f, hf, hfs, -⟩ := hgrown (lt_of_le_of_ne hs hne)
        have := (hDm l (mem_append_right _ (mem_singleton_self l)) f hf).1
        omega
      exact ⟨hss, hty, by omega, by omega, by simp⟩
    · rw [hf] at hl
      cases hl
      have hss : s = (w.st.lock w.request).start := hp.eq_of_nil.1
      rcases hright with ⟨hnone, -⟩ | ⟨f', T', -, hr', hty, -, h2⟩
      · rw [hnone] at hr
        cases hr
      · rw [hr'] at hr
        cases hr
        exact ⟨hss, hty, by omega, by omega, by simp [hr']⟩
  have hrightOk : ∀ f, w'.right = some f → ∃ T', T = f :: T'
      ∧ (w.st.lock f).type ≠ (w.st.lock w.request).type
      ∧ (w.st.lock f).start ≤ e ∧ e < (w.st.lock f).stop
      ∧ ((w.st.lock f).start < s → w'.left = some f) := by
    intro f hf
    rcases hright with ⟨hnone, -⟩ | ⟨f', T', rfl, hr', hty, h1, h2⟩
    · rw [hnone] at hf
      cases hf
    rw [hr'] at hf
    cases hf
    refine ⟨T', rfl, hty, h1, h2, fun hlt => ?_⟩
    rcases h.left with ⟨-, -, hle'⟩ | ⟨l, -, rfl, -, -, hl, -⟩ | ⟨g, -, hg, hr, -⟩
    · have := hle' f hr'
      omega
    · have := (hDlmT l (by simp) f mem_cons_self).1
      omega
    · rw [hr'] at hr
      cases hr
      exact hg
  have hTeq : ∃ T', T = w'.right.toList ++ T' := by
    cases hr : w'.right with
    | none => exact ⟨T, rfl⟩
    | some f =>
      obtain ⟨T', rfl, -⟩ := hrightOk f hr
      exact ⟨T', rfl⟩
  obtain ⟨T', rfl⟩ := hTeq
  refine ⟨T', rfl, fun n hty hstart hstop => ⟨hs, he, ?_, ?_, ?_, ?_, ?_, ?_, ?_, ?_, ?_, ?_, ?_⟩⟩
  · refine forall_mem_map.mpr fun d hd => ?_
    by_cases hss : s = (w.st.lock w.request).start
    · rw [hss]
      exact h.before d hd
    · obtain ⟨f, hf, hfs, hfty⟩ := hgrown (lt_of_le_of_ne hs hss)
      obtain ⟨hb1, hb2⟩ := hDm d (mem_append_left _ hd) f hf
      rw [hfs, hfty] at hb2
      exact ⟨by omega, hb2⟩
  · refine forall_mem_map.mpr fun g hg => ?_
    rcases hright with ⟨hnone, hafter⟩ | ⟨f, T₁, -, hr, -, -, hf⟩
    · exact hafter g (mem_append_right _ hg)
    · rw [hr] at hT
      have := ((pairwise_cons.mp hT).1 g hg).1
      exact ⟨by omega, fun _ => by omega⟩
  · split_ifs with hun
    · exact .inl ⟨hun, rfl⟩
    · exact .inr ⟨hun, n, rfl, hty, hstart, hstop⟩
  · refine forall_mem_map.mpr fun l hl => ?_
    obtain ⟨-, hlty, hl1, hl2, hlm⟩ := hleft l (Option.mem_toList.mp hl)
    exact ⟨_, mem_map_of_mem hlm, hlty, hl1, hl2, rfl, rfl, rfl⟩
  · refine forall_mem_map.mpr fun f hf => ?_
    obtain ⟨-, -, hfty, hf1, hf2, -⟩ := hrightOk f (Option.mem_toList.mp hf)
    exact ⟨_, mem_map_of_mem (mem_append_right _ hf), hfty, hf1, hf2, rfl, rfl, rfl⟩
  · cases w'.left with
    | none => exact List.Pairwise.nil
    | some l => exact pairwise_singleton _ _
  · cases w'.right with
    | none => exact List.Pairwise.nil
    | some f => exact pairwise_singleton _ _
  · intro x h1 h2
    simp only [map_append, covers_append]
    exact .inl (.inr (hlow x h1 h2))
  · intro x h1 h2
    simp only [map_append, covers_append]
    exact .inl (.inr (hp.high x h1 h2))
  · refine forall_mem_map.mpr fun f hf hlt => ?_
    have hsome : w'.left = some f := by
      simp only [mem_append] at hf
      rcases hf with (hf | hf) | hf
      · rcases h.left with ⟨-, rfl, -⟩ | ⟨l, hl, rfl, -⟩ | ⟨-, -, -, -, rfl, -⟩
        · exact absurd hf not_mem_nil
        · rw [mem_singleton.mp hf]
          exact hl
        · exact absurd hf not_mem_nil
      · exact absurd (hmids f hf) (not_le.mpr hlt)
      · obtain ⟨-, -, -, -, -, hl⟩ := hrightOk f (Option.mem_toList.mp hf)
        exact hl hlt
    exact ⟨_, mem_map_of_mem (Option.mem_toList.mpr hsome), rfl, rfl, rfl⟩
  · refine forall_mem_map.mpr fun f hf hlt => ?_
    have hsome : f ∈ w'.right.toList := by
      simp only [mem_append] at hf
      rcases hf with (hf | hf) | hf
      · rcases h.left with ⟨-, rfl, -⟩ | ⟨l, -, rfl, -, -, -, hle'⟩ | ⟨-, -, -, -, rfl, -⟩
        · exact absurd hf not_mem_nil
        · rw [mem_singleton.mp hf] at hlt
          omega
        · exact absurd hf not_mem_nil
      · exact absurd (hmide f hf) (not_le.mpr hlt)
      · exact hf
    exact ⟨_, mem_map_of_mem hsome, rfl, rfl, rfl⟩

end LinuxKernel.Fs
