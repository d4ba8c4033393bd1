import LinuxKernel.Proofs.PosixLock

/-!
# Owners that wait for each other

A request that blocks adds one edge to the waits-for relation; everything else takes edges away.
While no owner has two requests that wait, the relation is a function on owners, and the check
follows it: a cycle through the new edge is found if it is short enough.
-/

namespace LinuxKernel.Fs

open Function List

variable {I O : Type*} {inode : I} {f : FileLock O} {N l l' : List ℕ} {newFl newFl2 : Option ℕ}
  {s s₁ s₂ : LockState I O} {m : ℕ → FileLock O} {fl request : ℕ}

/-- The requests in `l` have stopped waiting. -/
structure Woken (s s' : LockState I O) (l : List ℕ) : Prop where
  next : ∀ w, s'.next w = if w ∈ l then none else s.next w
  block : ∀ fl, s'.block fl = (s.block fl).filter (· ∉ l)
  blockedList : s'.blockedList = s.blockedList.filter (· ∉ l)

lemma Woken.refl (s : LockState I O) : Woken s s [] :=
  ⟨fun _ => by simp, fun _ => by simp, by simp⟩

lemma Woken.trans (h : Woken s s₁ l) (h' : Woken s₁ s₂ l') : Woken s s₂ (l ++ l') := by
  refine ⟨fun w => ?_, fun fl => ?_, ?_⟩
  · rw [h'.next, h.next]
    by_cases h1 : w ∈ l <;> by_cases h2 : w ∈ l' <;> simp [h1, h2]
  · rw [h'.block, h.block, filter_filter]
    refine filter_congr fun w _ => ?_
    simp [Bool.and_comm]
  · rw [h'.blockedList, h.blockedList, filter_filter]
    refine filter_congr fun w _ => ?_
    simp [Bool.and_comm]

lemma woken_delete (s : LockState I O) (w : ℕ) : Woken s (locksDeleteBlock s w) [w] := by
  refine ⟨fun v => ?_, fun fl => ?_, ?_⟩
  · simp only [locksDeleteBlock, mem_singleton]
    split_ifs with hv
    · rw [hv, update_self]
    · exact update_of_ne hv _ _
  · simp [locksDeleteBlock]
  · simp [locksDeleteBlock]

lemma woken_foldl : ∀ (l : List ℕ) (s : LockState I O), Woken s (l.foldl locksDeleteBlock s) l
  | [], s => Woken.refl s
  | w :: l, s => (woken_delete s w).trans (woken_foldl l (locksDeleteBlock s w))

lemma Woken.congr {s' : LockState I O} (h : Woken s s₁ l) (hn : s'.next = s.next)
    (hb : s'.block = s.block) (hl : s'.blockedList = s.blockedList) : Woken s' s₁ l :=
  ⟨fun w => by rw [h.next, hn], fun fl => by rw [h.block, hb], by rw [h.blockedList, hl]⟩

lemma woken_wakeUp (s : LockState I O) (fl : ℕ) : Woken s (locksWakeUpBlocks s fl) (s.block fl) :=
  woken_foldl _ s

lemma locksWakeUpBlocks_block (s : LockState I O) (fl : ℕ) :
    (locksWakeUpBlocks s fl).block fl = [] := by
  rw [(woken_wakeUp s fl).block, filter_eq_nil_iff]
  intro w hw
  simpa using hw

lemma Woken.block_nil (h : Woken s s₁ l) (hfl : s.block fl = []) : s₁.block fl = [] := by
  rw [h.block, hfl]
  rfl

def SameOwners (N : List ℕ) (m m' : ℕ → FileLock O) : Prop :=
  ∀ p, p ∉ N → (m' p).owner = (m p).owner

lemma SameOwners.trans {m₁ m₂ : ℕ → FileLock O} (h : SameOwners N m m₁)
    (h' : SameOwners N m₁ m₂) : SameOwners N m m₂ := fun p hp => (h' p hp).trans (h p hp)

lemma sameOwners_update (h : f.owner = (m fl).owner) :
    SameOwners N m (update m fl f) := by
  intro p _
  by_cases hp : p = fl
  · rw [hp, update_self, h]
  · rw [update_of_ne hp]

lemma sameOwners_new (h : fl ∈ N) :
    SameOwners N m (update m fl f) := by
  intro p hp
  have hne : p ≠ fl := fun he => hp (he ▸ h)
  rw [update_of_ne hne]

lemma sameOwners_setStart (m : ℕ → FileLock O) (fl : ℕ) (x : ℤ) :
    SameOwners N m (setStart m fl x) := sameOwners_update rfl

lemma sameOwners_setStop (m : ℕ → FileLock O) (fl : ℕ) (x : ℤ) :
    SameOwners N m (setStop m fl x) := sameOwners_update rfl

lemma sameOwners_widen : SameOwners N m (widen m fl request) := by
  have hstart : SameOwners N m (widenStart m fl request) := by
    rw [widenStart]
    split_ifs
    · exact sameOwners_setStart m fl _
    · exact sameOwners_setStart m request _
  refine hstart.trans ?_
  rw [widen, widenStop]
  split_ifs
  · exact sameOwners_setStop _ fl _
  · exact sameOwners_setStop _ request _

/-- What a part of `__posix_lock_file` does that takes the list from `L` to `L'`: it wakes requests,
and whoever waits for a lock that leaves the list is among them. -/
structure Tidy (N : List ℕ) (s s' : LockState I O) (L L' : List ℕ) : Prop where
  woken : ∃ l, Woken s s' l
  gone : ∀ p ∈ L, p ∈ L' ∨ s'.block p = []
  owners : SameOwners N s.lock s'.lock
  flock : s'.flock = s.flock

section

variable {L L₁ L₂ : List ℕ}

lemma Tidy.refl (s : LockState I O) (L : List ℕ) : Tidy N s s L L :=
  ⟨⟨[], Woken.refl s⟩, fun _ hp => .inl hp, fun _ _ => rfl, rfl⟩

lemma Tidy.trans (h : Tidy N s s₁ L L₁) (h' : Tidy N s₁ s₂ L₁ L₂) : Tidy N s s₂ L L₂ := by
  obtain ⟨l, hl⟩ := h.woken
  obtain ⟨l', hl'⟩ := h'.woken
  refine ⟨⟨l ++ l', hl.trans hl'⟩, fun p hp => ?_, h.owners.trans h'.owners, h'.flock.trans h.flock⟩
  rcases h.gone p hp with hp | hp
  · exact h'.gone p hp
  · exact .inr (hl'.block_nil hp)

lemma tidy_lock (h : SameOwners N s.lock m) :
    Tidy N s { s with lock := m } L L :=
  ⟨⟨[], (Woken.refl _).congr rfl rfl rfl⟩, fun _ hp => .inl hp, h, rfl⟩

lemma tidy_wakeUp (hL : ∀ p ∈ L, p ≠ fl → p ∈ L₁) : Tidy N s (locksWakeUpBlocks s fl) L L₁ := by
  refine ⟨⟨_, woken_wakeUp s fl⟩, fun p hp => ?_, fun p _ => by rw [locksWakeUpBlocks_lock],
    locksWakeUpBlocks_flock s fl⟩
  by_cases hpf : p = fl
  · rw [hpf]
    exact .inr (locksWakeUpBlocks_block s fl)
  · exact .inl (hL p hp hpf)

lemma tidy_cut (h : SameOwners N s.lock m) (hL : ∀ p ∈ L, p ∈ L₁) :
    Tidy N s (locksWakeUpBlocks { s with lock := m } fl) L L₁ :=
  (tidy_lock h).trans (tidy_wakeUp fun p hp _ => hL p hp)

variable [DecidableEq O]

lemma tidy_processLocks : ∀ (rest prev : List ℕ) (w : Walk I O), Tidy N w.st
    (processLocks prev rest w).1.st (prev ++ rest)
    ((processLocks prev rest w).2.1 ++ (processLocks prev rest w).2.2)
  | [], prev, w => Tidy.refl _ _
  | fl :: rest, prev, w => by
    have hnext : ∀ w₁ : Walk I O, Tidy N w.st w₁.st (prev ++ fl :: rest) (prev ++ [fl] ++ rest) →
        Tidy N w.st (processLocks (prev ++ [fl]) rest w₁).1.st (prev ++ fl :: rest)
          ((processLocks (prev ++ [fl]) rest w₁).2.1
          ++ (processLocks (prev ++ [fl]) rest w₁).2.2) :=
      fun w₁ h => h.trans (tidy_processLocks rest (prev ++ [fl]) w₁)
    have hdel : ∀ w₁ : Walk I O, Tidy N w.st w₁.st (prev ++ fl :: rest) (prev ++ rest) →
        Tidy N w.st (processLocks prev rest w₁).1.st (prev ++ fl :: rest)
          ((processLocks prev rest w₁).2.1 ++ (processLocks prev rest w₁).2.2) :=
      fun w₁ h => h.trans (tidy_processLocks rest prev w₁)
    have hkeep : prev ++ fl :: rest = prev ++ [fl] ++ rest := by simp
    have hdrop : ∀ p ∈ prev ++ fl :: rest, p ≠ fl → p ∈ prev ++ rest := by
      intro p hp hne
      simp only [mem_append, mem_cons] at hp ⊢
      tauto
    rw [processLocks]
    simp only
    split_ifs
    · exact Tidy.refl _ _
    · refine hnext w ?_
      rw [← hkeep]
      exact Tidy.refl _ _
    · exact Tidy.refl _ _
    · exact hdel _ ((tidy_lock sameOwners_widen).trans (tidy_wakeUp hdrop))
    · refine hnext _ ?_
      rw [← hkeep]
      exact tidy_lock sameOwners_widen
    · refine hnext w ?_
      rw [← hkeep]
      exact Tidy.refl _ _
    · exact Tidy.refl _ _
    · exact Tidy.refl _ _
    · exact hdel _ (tidy_wakeUp hdrop)
    · -- the waiters of the lock that is replaced are woken, and it stays in the list
      refine hnext _ ?_
      rw [← hkeep]
      refine (tidy_wakeUp fun p hp _ => hp).trans (tidy_lock ?_)
      rw [locksWakeUpBlocks_lock]
      exact sameOwners_update rfl
    · refine hnext _ ?_
      rw [← hkeep]
      exact Tidy.refl _ _

omit [DecidableEq O] in
lemma tidy_trimRight (h2 : ∀ p, newFl2 = some p → p ∈ N) (w : Walk I O) (prev rest : List ℕ) :
    Tidy N w.st (trimRight w newFl2 prev rest).1.st (prev ++ rest)
      (trimRight w newFl2 prev rest).2 := by
  rw [trimRight.eq_def]
  cases w.right with
  | none => exact Tidy.refl _ _
  | some right =>
    cases newFl2 with
    | none => exact tidy_cut (sameOwners_setStart _ right _) fun p hp => hp
    | some new =>
      simp only
      split_ifs
      · refine tidy_cut ((sameOwners_new (h2 new rfl)).trans (sameOwners_setStart _ right _))
          fun p hp => ?_
        simp only [mem_append, mem_cons] at hp ⊢
        tauto
      · exact tidy_cut (sameOwners_setStart _ right _) fun p hp => hp

omit [DecidableEq O] in
lemma tidy_trimLeft (w : Walk I O) (L : List ℕ) : Tidy N w.st (trimLeft w) L L := by
  rw [trimLeft.eq_def]
  cases w.left with
  | none => exact Tidy.refl _ _
  | some left => exact tidy_cut (sameOwners_setStop _ left _) fun p hp => hp

variable [DecidableEq I]

omit [DecidableEq O] in
lemma tidy_finishLock (h1 : ∀ p, newFl = some p → p ∈ N) (h2 : ∀ p, newFl2 = some p → p ∈ N)
    (w : Walk I O) (inode : I) (prev rest : List ℕ) :
    ∃ s₁ L', (finishLock w inode newFl newFl2 prev rest).1 = s₁.setFlock inode L'
      ∧ Tidy N w.st s₁ (prev ++ rest) L' := by
  have hdone : ∀ (w₁ : Walk I O) (rest' : List ℕ),
      Tidy N w.st w₁.st (prev ++ rest) (prev ++ rest') →
      Tidy N w.st (trimLeft (trimRight w₁ newFl2 prev rest').1) (prev ++ rest)
        (trimRight w₁ newFl2 prev rest').2 := fun w₁ rest' h =>
    (h.trans (tidy_trimRight h2 w₁ prev rest')).trans (tidy_trimLeft _ _)
  rw [finishLock.eq_def]
  simp only
  by_cases hone : w.right ≠ none ∧ w.left = w.right ∧ newFl2 = none
  · rw [if_pos hone]
    exact ⟨_, _, rfl, Tidy.refl _ _⟩
  rw [if_neg hone]
  by_cases hadd : w.added = false
  · rw [if_pos hadd]
    by_cases hun : (w.st.lock w.request).type = .unlck
    · rw [if_pos hun]
      exact ⟨_, _, rfl, Tidy.refl _ _⟩
    rw [if_neg hun]
    cases newFl with
    | none => exact ⟨_, _, rfl, Tidy.refl _ _⟩
    | some new =>
      refine ⟨_, _, rfl, hdone _ (new :: rest) ⟨⟨[], (Woken.refl _).congr rfl rfl rfl⟩,
        fun p hp => .inl ?_, sameOwners_new (h1 new rfl), rfl⟩⟩
      simp only [mem_append, mem_cons] at hp ⊢
      tauto
  · rw [if_neg hadd]
    exact ⟨_, _, rfl, hdone w rest (Tidy.refl _ _)⟩

lemma tidy_applyLock (h1 : ∀ p, newFl = some p → p ∈ N) (h2 : ∀ p, newFl2 = some p → p ∈ N)
    (s : LockState I O) (inode : I) (request : ℕ) :
    ∃ s₁ L', (applyLock s inode request newFl newFl2).1 = s₁.setFlock inode L'
      ∧ Tidy N s s₁ (s.flock inode) L' := by
  have hloop := tidy_processLocks (N := N)
    ((s.flock inode).dropWhile fun fl => !posixSameOwner (s.lock request) (s.lock fl))
    ((s.flock inode).takeWhile fun fl => !posixSameOwner (s.lock request) (s.lock fl))
    ⟨s, request, none, none, false⟩
  rw [takeWhile_append_dropWhile] at hloop
  obtain ⟨s₁, L', heq, htidy⟩ := tidy_finishLock h1 h2 _ inode _ _
  exact ⟨s₁, L', heq, hloop.trans htidy⟩

end

section

def WaitsFor (s : LockState I O) (a b : O) : Prop :=
  ∃ w fl, s.next w = some fl ∧ (s.lock w).owner = a ∧ (s.lock fl).owner = b

def WaitCycle (s : LockState I O) (n : ℕ) : Prop :=
  ∃ c : ℕ → O, c n = c 0 ∧ ∀ i < n, WaitsFor s (c i) (c (i + 1))

/-- No owner has two requests that wait. -/
def OneBlocked (s : LockState I O) : Prop :=
  ∀ w w', s.next w ≠ none → s.next w' ≠ none → (s.lock w).owner = (s.lock w').owner → w = w'

structure WaitInv (s : LockState I O) : Prop where
  block : ∀ w fl, w ∈ s.block fl ↔ s.next w = some fl
  list : ∀ w, w ∈ s.blockedList ↔ s.next w ≠ none
  live : ∀ w fl, s.next w = some fl → ∃ i, fl ∈ s.flock i
  one : OneBlocked s
  acyclic : ∀ n, 0 < n → n ≤ maxDeadlkIterations + 2 → ¬ WaitCycle s n

variable {s' : LockState I O}

lemma WaitCycle.periodic {n : ℕ} (hn : 0 < n) (h : WaitCycle s n) :
    ∃ c : ℕ → O, (∀ k, c (k + n) = c k) ∧ ∀ k, WaitsFor s (c k) (c (k + 1)) := by
  obtain ⟨c, hc, hstep⟩ := h
  refine ⟨fun k => c (k % n), fun k => by simp, fun k => ?_⟩
  have hk := Nat.mod_lt k hn
  have hnext : c ((k + 1) % n) = c (k % n + 1) := by
    rw [← Nat.mod_add_mod]
    by_cases hlast : k % n + 1 = n
    · rw [hlast, Nat.mod_self, hc]
    · rw [Nat.mod_eq_of_lt (by omega)]
  show WaitsFor s (c (k % n)) (c ((k + 1) % n))
  rw [hnext]
  exact hstep _ hk

lemma WaitInv.woken (h : WaitInv s) (hw : Woken s s' l)
    (hown : ∀ p, (s.next p ≠ none ∨ ∃ i, p ∈ s.flock i) → (s'.lock p).owner = (s.lock p).owner)
    (hlive : ∀ w fl, s'.next w = some fl → ∃ i, fl ∈ s'.flock i) : WaitInv s' := by
  have hnext : ∀ w fl, s'.next w = some fl ↔ w ∉ l ∧ s.next w = some fl := by
    intro w fl
    rw [hw.next]
    by_cases hl : w ∈ l <;> simp [hl]
  have hnone : ∀ w, s'.next w ≠ none ↔ w ∉ l ∧ s.next w ≠ none := by
    intro w
    rw [hw.next]
    by_cases hl : w ∈ l <;> simp [hl]
  have hwaits : ∀ a b, WaitsFor s' a b → WaitsFor s a b := by
    rintro a b ⟨w, fl, hn, rfl, rfl⟩
    have hold := ((hnext w fl).mp hn).2
    exact ⟨w, fl, hold, (hown w (.inl (by rw [hold]; exact Option.some_ne_none fl))).symm,
      (hown fl (.inr (h.live w fl hold))).symm⟩
  refine ⟨fun w fl => ?_, fun w => ?_, hlive, fun w w' h1 h2 he => ?_, fun n h1 h2 hc => ?_⟩
  · rw [hw.block, mem_filter, hnext, h.block, decide_eq_true_eq, and_comm]
  · rw [hw.blockedList, mem_filter, hnone, h.list, decide_eq_true_eq, and_comm]
  · have h1' := ((hnone w).mp h1).2
    have h2' := ((hnone w').mp h2).2
    rw [hown w (.inl h1'), hown w' (.inl h2')] at he
    exact h.one w w' h1' h2' he
  · obtain ⟨c, hc, hstep⟩ := hc
    exact h.acyclic n h1 h2 ⟨c, hc, fun i hi => hwaits _ _ (hstep i hi)⟩

variable [DecidableEq O]

lemma WaitInv.whatOwner (h : WaitInv s) {a b : O} {blockFl : ℕ} (hw : WaitsFor s a b)
    (ha : a = (s.lock blockFl).owner) :
    ∃ fl, whatOwnerIsWaitingFor s blockFl = some fl ∧ (s.lock fl).owner = b := by
  obtain ⟨w, fl, hn, hwo, hfl⟩ := hw
  have hnw : s.next w ≠ none := by
    rw [hn]
    exact Option.some_ne_none fl
  have hsame : posixSameOwner (s.lock w) (s.lock blockFl) = true :=
    decide_eq_true (hwo.trans ha)
  refine ⟨fl, ?_, hfl⟩
  cases hfind : s.blockedList.find? fun fl => posixSameOwner (s.lock fl) (s.lock blockFl) with
  | none => exact absurd hsame (List.find?_eq_none.mp hfind w ((h.list w).mpr hnw))
  | some w' =>
    have hsame' := List.find?_some hfind
    rw [posixSameOwner, decide_eq_true_eq] at hsame'
    have hw' := (h.list w').mp (List.mem_of_find?_eq_some hfind)
    have heq := h.one w' w hw' hnw (hsame'.trans (hwo.trans ha).symm)
    rw [whatOwnerIsWaitingFor, hfind, Option.bind_some, heq, hn]

lemma WaitInv.deadlock (h : WaitInv s) (request : ℕ) :
    ∀ (n k blockFl : ℕ) (e : ℕ → O), n ≤ k → e 0 = (s.lock blockFl).owner →
      e 0 ≠ (s.lock request).owner → e n = (s.lock request).owner →
      (∀ j < n, e j ≠ (s.lock request).owner → WaitsFor s (e j) (e (j + 1))) →
      deadlockLoop s request k blockFl = true
  | 0, _, _, _, _, _, hne, hn, _ => absurd hn hne
  | n + 1, 0, _, _, hle, _, _, _, _ => by omega
  | n + 1, k + 1, blockFl, e, hle, h0, hne, hn, hstep => by
    obtain ⟨fl, hwhat, hfl⟩ := h.whatOwner (hstep 0 (by omega) hne) h0
    rw [deadlockLoop.eq_def]
    simp only [hwhat]
    by_cases hback : posixSameOwner (s.lock request) (s.lock fl) = true
    · rw [if_pos hback]
    rw [if_neg hback]
    have hne' : e (0 + 1) ≠ (s.lock request).owner := fun he =>
      hback (decide_eq_true (he.symm.trans hfl.symm))
    exact h.deadlock request n k fl (fun j => e (j + 1)) (by omega) hfl.symm hne' hn
      fun j hj hj' => hstep (j + 1) (by omega) hj'

lemma WaitInv.insert (h : WaitInv s)
    (hins : locksInsertBlock s fl request = some s') (hfl : fl ∈ s.flock inode)
    (hne : (s.lock fl).owner ≠ (s.lock request).owner)
    (hdead : posixLocksDeadlock s request fl = false) (hone : OneBlocked s') : WaitInv s' := by
  rw [locksInsertBlock] at hins
  split_ifs at hins with hbug
  obtain ⟨hblock, hidle⟩ := not_or.mp hbug
  rw [not_not] at hblock hidle
  cases hins
  have hnext : ∀ w b, update s.next request (some fl) w = some b ↔
      s.next w = some b ∨ w = request ∧ b = fl := by
    intro w b
    by_cases hw : w = request
    · subst hw
      rw [update_self, hidle]
      simp [eq_comm]
    · rw [update_of_ne hw]
      simp [hw]
  have hnone : ∀ w, update s.next request (some fl) w ≠ none ↔
      s.next w ≠ none ∨ w = request := by
    intro w
    by_cases hw : w = request
    · subst hw
      rw [update_self]
      simp
    · rw [update_of_ne hw]
      simp [hw]
  refine ⟨fun w b => ?_, fun w => ?_, fun w b hw => ?_, hone, fun n h1 h2 hc => ?_⟩
  · show w ∈ update s.block fl _ b ↔ update s.next request (some fl) w = some b
    rw [hnext, ← h.block]
    by_cases hb : b = fl
    · subst hb
      rw [update_self]
      simp
    · rw [update_of_ne hb]
      simp [hb]
  · show w ∈ request :: s.blockedList ↔ update s.next request (some fl) w ≠ none
    rw [hnone, mem_cons, h.list, or_comm]
  · rcases (hnext w b).mp hw with hold | ⟨-, rfl⟩
    · exact h.live w b hold
    · exact ⟨inode, hfl⟩
  · -- an edge from another owner was there before
    have hwaits : ∀ a b, WaitsFor { s with
        block := update s.block fl (s.block fl ++ [request])
        next := update s.next request (some fl)
        blockedList := request :: s.blockedList } a b →
        WaitsFor s a b ∨ a = (s.lock request).owner ∧ b = (s.lock fl).owner := by
      rintro a b ⟨w, b', hn, rfl, rfl⟩
      rcases (hnext w b').mp hn with hold | ⟨rfl, rfl⟩
      · exact .inl ⟨w, b', hold, rfl, rfl⟩
      · exact .inr ⟨rfl, rfl⟩
    obtain ⟨c, hper, hstep⟩ := hc.periodic h1
    by_cases hold : ∀ i, WaitsFor s (c i) (c (i + 1))
    · refine h.acyclic n h1 h2 ⟨c, ?_, fun i _ => hold i⟩
      rw [← hper 0, zero_add]
    obtain ⟨i, hi⟩ := not_forall.mp hold
    obtain ⟨hci, hci'⟩ := (hwaits _ _ (hstep i)).resolve_left hi
    -- the cycle leads from the new edge back to its start
    have hloop := h.deadlock request (n - 1) (maxDeadlkIterations + 1) fl
      (fun j => c (i + 1 + j)) (by omega) hci' (by rw [add_zero, hci']; exact hne)
      (by
        show c (i + 1 + (n - 1)) = _
        rw [show i + 1 + (n - 1) = i + n by omega, hper, hci])
      fun j _ hj => (hwaits _ _ (hstep (i + 1 + j))).resolve_right fun hnew => hj hnew.1
    rw [posixLocksDeadlock, hloop] at hdead
    cases hdead

end

section

variable {s' : LockState I O} {res : LockResult}

/-- The request and the new locks are on no list; the new locks are not requests that wait, and a
request that waits stays one of its owner. -/
def LockCall.Clean (s : LockState I O) : LockCall I O → Prop
  | .lock _ request f newFl newFl2 =>
    (∀ i, Fresh request newFl newFl2 (s.flock i))
      ∧ (s.next request ≠ none → f.owner = (s.lock request).owner)
      ∧ ∀ p, newFl = some p ∨ newFl2 = some p → s.next p = none
  | .unblock _ => True

lemma waitInv_empty (m : ℕ → FileLock O) : WaitInv (LockState.empty m : LockState I O) := by
  have hnone : ∀ w, (LockState.empty m : LockState I O).next w = none := fun _ => rfl
  refine ⟨fun w fl => ?_, fun w => ?_, fun w fl h => ?_, fun w w' h => ?_, fun n hn _ hc => ?_⟩
  · exact ⟨fun h => absurd h not_mem_nil, fun h => by cases h⟩
  · exact ⟨fun h => absurd h not_mem_nil, fun h => absurd (hnone w) h⟩
  · cases h
  · exact absurd (hnone w) h
  · obtain ⟨c, -, hstep⟩ := hc
    obtain ⟨w, fl, h, -⟩ := hstep 0 hn
    cases h

variable [DecidableEq O] [DecidableEq I] {c : LockCall I O}

omit [DecidableEq I] in
lemma findConflict_some
    (h : findConflict s inode request = some fl) :
    fl ∈ s.flock inode ∧ (s.lock fl).owner ≠ (s.lock request).owner := by
  rw [findConflict] at h
  split_ifs at h with hun
  refine ⟨List.mem_of_find?_eq_some h, fun he => ?_⟩
  have hconf := List.find?_some h
  rw [posixLocksConflict, posixSameOwner, decide_eq_true he.symm] at hconf
  simp at hconf

lemma WaitInv.apply (h : WaitInv s)
    (hfresh : ∀ i, Fresh request newFl newFl2 (s.flock i))
    (hnew : ∀ p, newFl = some p ∨ newFl2 = some p → s.next p = none)
    (hcall : applyLock s inode request newFl newFl2 = (s', res)) : WaitInv s' := by
  have h1 : ∀ p, newFl = some p → p ∈ newFl.toList ++ newFl2.toList := fun p hp => by simp [hp]
  have h2 : ∀ p, newFl2 = some p → p ∈ newFl.toList ++ newFl2.toList := fun p hp => by simp [hp]
  obtain ⟨s₁, L', heq, htidy⟩ := tidy_applyLock h1 h2 s inode request
  rw [hcall] at heq
  obtain rfl : s' = s₁.setFlock inode L' := heq
  obtain ⟨l, hl⟩ := htidy.woken
  have hw : Woken s (s₁.setFlock inode L') l := ⟨hl.next, hl.block, hl.blockedList⟩
  refine h.woken hw (fun p hp => htidy.owners p fun hN => ?_) fun w fl hn => ?_
  · have hN' : newFl = some p ∨ newFl2 = some p := by simpa using hN
    rcases hp with hp | ⟨i, hi⟩
    · exact hp (hnew p hN')
    · rcases hN' with hN' | hN'
      · exact ((hfresh i).new p hN').1 hi
      · exact ((hfresh i).new2 p hN').1 hi
  have hn' : s₁.next w = some fl := hn
  rw [hl.next] at hn'
  split_ifs at hn' with hwl
  obtain ⟨i, hi⟩ := h.live w fl hn'
  by_cases hin : i = inode
  · -- who waits for a lock that is gone was woken
    subst hin
    refine ⟨i, ?_⟩
    show fl ∈ update s₁.flock i L' i
    rw [update_self]
    refine (htidy.gone fl hi).resolve_right fun hnil => ?_
    have hmem : w ∈ s₁.block fl := by
      rw [hl.block, mem_filter, h.block, decide_eq_true_eq]
      exact ⟨hn', hwl⟩
    rw [hnil] at hmem
    exact absurd hmem not_mem_nil
  · refine ⟨i, ?_⟩
    show fl ∈ update s₁.flock inode L' i
    rw [update_of_ne hin, htidy.flock]
    exact hi

lemma WaitInv.posixLockFile (h : WaitInv s)
    (hfresh : ∀ i, Fresh request newFl newFl2 (s.flock i))
    (hnew : ∀ p, newFl = some p ∨ newFl2 = some p → s.next p = none)
    (hcall : Fs.posixLockFile s inode request newFl newFl2 = some (s', res))
    (hone : OneBlocked s') : WaitInv s' := by
  rw [posixLockFile.eq_def] at hcall
  simp only at hcall
  cases hfind : findConflict s inode request with
  | some fl =>
    simp only [hfind] at hcall
    split_ifs at hcall with hsleep hdead
    · cases hcall
      exact h
    · cases hcall
      exact h
    · obtain ⟨s₁, hins, heq⟩ := Option.map_eq_some_iff.mp hcall
      cases heq
      obtain ⟨hfl, hne⟩ := findConflict_some hfind
      exact h.insert hins hfl hne (Bool.eq_false_iff.mpr hdead) hone
  | none =>
    simp only [hfind] at hcall
    by_cases hacc : (s.lock request).flAccess = true
    · rw [if_pos hacc] at hcall
      cases hcall
      exact h
    rw [if_neg hacc] at hcall
    refine h.apply (fun i => (hfresh i).ite) (fun p hp => hnew p ?_) (Option.some.inj hcall)
    split_ifs at hp
    · simp at hp
    · exact hp

lemma WaitInv.exec (h : WaitInv s) (hc : c.Clean s)
    (hexec : c.exec s = some (s', res)) (hone : OneBlocked s') : WaitInv s' := by
  cases c with
  | lock inode request f newFl newFl2 =>
    obtain ⟨hfresh, hreq, hnew⟩ := hc
    have hw : Woken s { s with lock := update s.lock request f } [] :=
      (Woken.refl _).congr rfl rfl rfl
    refine (h.woken hw (fun p hp => ?_) h.live).posixLockFile hfresh hnew hexec hone
    show (update s.lock request f p).owner = _
    by_cases hpr : p = request
    · subst hpr
      rw [update_self]
      exact hp.elim hreq fun ⟨i, hi⟩ => absurd hi (hfresh i).request
    · rw [update_of_ne hpr]
  | unblock waiter =>
    rw [LockCall.exec, posixUnblockLock] at hexec
    split_ifs at hexec
    · cases hexec
      refine h.woken (woken_delete s waiter) (fun _ _ => rfl) fun w fl hn => ?_
      rw [(woken_delete s waiter).next] at hn
      split_ifs at hn
      exact h.live w fl hn
    · cases hexec
      exact h

/-- The condition on a run: no owner has two requests that wait at a time. -/
def LockCall.Single (s : LockState I O) (c : LockCall I O) : Prop :=
  c.Clean s ∧ ∀ s' res, c.exec s = some (s', res) → OneBlocked s'

/-- However calls and wake-ups follow each other, if no owner has two requests that wait at a time
there is never a cycle of at most `MAX_DEADLK_ITERATIONS + 2` owners that wait for one another. -/
theorem posix_locks_no_deadlock (h : LockReach LockCall.Single s) (n : ℕ) (hn : 0 < n)
    (hle : n ≤ maxDeadlkIterations + 2) : ¬ WaitCycle s n := by
  have hinv : WaitInv s := by
    induction h with
    | empty m => exact waitInv_empty m
    | call c _ hc hexec ih => exact ih.exec hc.1 hexec (hc.2 _ _ hexec)
  exact hinv.acyclic n hn hle

lemma single_of_next (hc : c.Clean s) (hs : (c.exec s).isSome = true) (w : ℕ)
    (hn : ∀ v, v ≠ w → ((c.exec s).get hs).1.next v = none) : c.Single s := by
  refine ⟨hc, fun s' res hexec v v' hv hv' _ => ?_⟩
  simp only [hexec, Option.get_some] at hn
  rw [not_imp_comm.mp (hn v) hv, not_imp_comm.mp (hn v') hv']

omit [DecidableEq O] in
lemma clean_lock {s : LockState Unit O} {new new2 : ℕ}
    (hfresh : request ∉ s.flock () ∧ new ∉ s.flock () ∧ new2 ∉ s.flock () ∧ new ≠ request
      ∧ new2 ≠ request ∧ new ≠ new2)
    (hidle : s.next request = none ∧ s.next new = none ∧ s.next new2 = none) :
    (LockCall.lock () request f (some new) (some new2)).Clean s := by
  obtain ⟨h1, h2, h3, h4, h5, h6⟩ := hfresh
  refine ⟨fun _ => ⟨h1, fun p hp => ?_, fun p hp => ?_, fun p hp hp' => ?_⟩,
    fun h => absurd hidle.1 h, fun p hp => ?_⟩
  · cases hp
    exact ⟨h2, h4⟩
  · cases hp
    exact ⟨h3, h5⟩
  · cases hp
    cases hp'
    exact h6 rfl
  · rcases hp with hp | hp
    · cases hp
      exact hidle.2.1
    · cases hp
      exact hidle.2.2

theorem posix_locks_no_deadlock_two :
    ∃ s : LockState Unit ℕ, LockReach LockCall.Single s ∧ s.next 7 = some 2
      ∧ (∃ s', (LockCall.lock () 8 ⟨2, .wrlck, 0, 0, true, false, false⟩ (some 5) (some 6)).exec s =
        some (s', .deadlk)) ∧ ¬ WaitCycle s 2 := by
  have h0 : LockReach LockCall.Single (LockState.empty (I := Unit) fun _ =>
      (⟨0, .unlck, 0, 0, false, false, false⟩ : FileLock ℕ)) := .empty _
  have h1 := h0.next (c := .lock () 7 ⟨1, .wrlck, 0, 0, true, false, false⟩ (some 1) (some 5))
    (single_of_next (clean_lock (by decide) (by decide)) (by decide +kernel) 7 fun _ _ => rfl)
    (by decide +kernel)
  have h2 := h1.next (c := .lock () 7 ⟨2, .wrlck, 1, 1, true, false, false⟩ (some 2) (some 5))
    (single_of_next (clean_lock (by decide +kernel) (by decide +kernel)) (by decide +kernel) 7
      fun _ _ => rfl) (by decide +kernel)
  have h3 := h2.next (c := .lock () 7 ⟨1, .wrlck, 1, 1, true, false, false⟩ (some 5) (some 6))
    (single_of_next (clean_lock (by decide +kernel) (by decide +kernel)) (by decide +kernel) 7
      fun v hv => update_of_ne hv _ _) (by decide +kernel)
  exact ⟨_, h3, by decide +kernel, ⟨_, rfl⟩, posix_locks_no_deadlock h3 2 (by decide) (by decide)⟩

end

end LinuxKernel.Fs
