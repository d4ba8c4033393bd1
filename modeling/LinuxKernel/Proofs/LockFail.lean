import LinuxKernel.Proofs.PosixLock

/-!
# A lock request that fails changes no lock

The loop of `__posix_lock_file` has consumed no lock when the request has no place at its end, and
none when one lock sticks out of the request on both sides. These are the two cases in which a
missing spare lock is noticed.
-/

namespace LinuxKernel.Fs

open List

variable {I O : Type*} {w w' : Walk I O} {D lft mid N T B : List ℕ} {s e : ℤ}

def Walk.Open (w : Walk I O) : Prop :=
  w.added = false ∨ w.right ≠ none ∧ w.left = w.right

lemma Looped.unchanged (h : Looped w w' D lft mid N T s e)
    (hseg : Segment w (D ++ lft ++ mid ++ T) B) (hopen : w'.Open) :
    mid = [] ∧ N = [] ∧ ∀ p, p ≠ w.request → w'.st.lock p = w.st.lock p := by
  obtain ⟨w₁, hst, hreq, hplaced⟩ := h.placed
  have hnil : mid = [] ∧ N = [] := by
    rcases hopen with hadd | ⟨hright, heq⟩
    · rcases hplaced.new with ⟨-, hN, hmid, -⟩ | ⟨hadd', -⟩ | ⟨hadd', -⟩
      · exact ⟨hmid, hN⟩
      · cases hadd.symm.trans hadd'
      · cases hadd.symm.trans hadd'
    · obtain ⟨f, -, -, -, hmid, hN⟩ := h.contained hseg hright heq
      exact ⟨hmid, hN⟩
  obtain ⟨rfl, rfl⟩ := hnil
  exact ⟨rfl, rfl, fun p hp => by rw [hplaced.frame p (hreq ▸ hp) not_mem_nil, hst]⟩

section

variable [DecidableEq I] {s s' : LockState I O} {inode : I} {request : ℕ} {newFl newFl2 : Option ℕ}
  {res : LockResult}

lemma finishLock_fail {prev rest : List ℕ}
    (h : finishLock w inode newFl newFl2 prev rest = (s', res)) (hres : res ≠ .ok) :
    w.Open ∧ s' = w.st.setFlock inode (prev ++ rest) := by
  rw [finishLock.eq_def] at h
  simp only at h
  split_ifs at h with hone hadd hun hex
  · exact ⟨.inr ⟨hone.1, hone.2.1⟩, (Prod.mk.inj h).1.symm⟩
  · exact ⟨.inl hadd, (Prod.mk.inj h).1.symm⟩
  · exact absurd (Prod.mk.inj h).2.symm hres
  · cases newFl with
    | none => exact ⟨.inl hadd, (Prod.mk.inj h).1.symm⟩
    | some new => exact absurd (Prod.mk.inj h).2.symm hres
  · exact absurd (Prod.mk.inj h).2.symm hres

variable [DecidableEq O]

lemma applyLock_fail (hok : ListOk s.lock (s.flock inode)) (hreq : request ∉ s.flock inode)
    (h : applyLock s inode request newFl newFl2 = (s', res)) (hres : res ≠ .ok) :
    (∀ p ∈ s.flock inode, s'.lock p = s.lock p) ∧ s'.flock inode = s.flock inode := by
  obtain ⟨A₀, G, B₀, hown₀⟩ := hok.owners (s.lock request).owner
  obtain ⟨A, B, hown, -, htake, hdrop⟩ := hown₀.search rfl
  have hlist := hown.list
  have hnd := hok.nodup
  rw [hlist, append_assoc] at hnd
  have hGB := (nodup_append'.mp hnd).2.1
  have hseg : Segment (⟨s, request, none, none, false⟩ : Walk I O) G B :=
    ⟨hGB, fun hmem => hreq (by rw [hlist, append_assoc]; exact mem_append_right _ hmem),
      hown.owned, fun b hb => hown.others b (mem_append_right _ (List.mem_of_mem_head? hb)),
      pairwise_map.mp hown.group.sorted, forall_mem_map.mp hown.group.locks⟩
  obtain ⟨D, lft, mid, N, T, w', a, e, rfl, hcall, hloop⟩ :=
    processLocks_spec G A _ hseg rfl rfl rfl
  rw [applyLock] at h
  simp only [htake, hdrop, hcall] at h
  obtain ⟨hopen, rfl⟩ := finishLock_fail h hres
  obtain ⟨rfl, rfl, hsame⟩ := hloop.unchanged hseg hopen
  refine ⟨fun p hp => hsame p (ne_of_mem_of_not_mem hp hreq), ?_⟩
  show Function.update _ inode _ inode = _
  rw [Function.update_self, hlist]
  simp

/-- A call of `__posix_lock_file` that does not succeed leaves every owner the types it had on the
bytes of the file, whichever spare locks there were. -/
theorem posixLockFile_fail (hok : ListOk s.lock (s.flock inode)) (hreq : request ∉ s.flock inode)
    (h : posixLockFile s inode request newFl newFl2 = some (s', res)) (hres : res ≠ .ok) (o : O)
    (x : ℤ) :
    lockTypeAt s'.lock (s'.flock inode) o x = lockTypeAt s.lock (s.flock inode) o x := by
  have hsame : (∀ p ∈ s.flock inode, s'.lock p = s.lock p) ∧ s'.flock inode = s.flock inode := by
    rw [posixLockFile.eq_def] at h
    simp only at h
    split at h
    · split_ifs at h
      · cases h
        exact ⟨fun _ _ => rfl, rfl⟩
      · cases h
        exact ⟨fun _ _ => rfl, rfl⟩
      · obtain ⟨s₁, hins, heq⟩ := Option.map_eq_some_iff.mp h
        cases heq
        rw [locksInsertBlock] at hins
        split_ifs at hins
        cases hins
        exact ⟨fun _ _ => rfl, rfl⟩
    · split_ifs at h
      · cases h
        exact absurd rfl hres
      all_goals exact applyLock_fail hok hreq (Option.some.inj h) hres
  rw [hsame.2]
  exact hok.lockTypeAt_congr hsame.1 o x

theorem posixLockFile_fail_split :
    let lock : ℕ → FileLock ℕ := fun p =>
      if p = 1 then ⟨1, .rdlck, 0, 9, false, false, false⟩
      else ⟨1, .unlck, 3, 4, false, false, false⟩
    let s : LockState Unit ℕ := ⟨lock, fun _ => [1], fun _ => none, fun _ => [], []⟩
    ∃ s', posixLockFile s () 0 (some 2) none = some (s', .nolck) ∧
      lockTypeAt s'.lock (s'.flock ()) 1 3 = lockTypeAt s.lock (s.flock ()) 1 3 := by
  intro lock s
  have hok : ListOk s.lock (s.flock ()) := by
    refine ⟨nodup_singleton 1, fun o => ?_, fun p hp q hq hne => ?_⟩
    · by_cases ho : o = 1
      · refine ⟨[], [1], [], rfl, by simp [s, lock, ho], by simp, pairwise_singleton _ _, ?_⟩
        intro f hf
        rw [mem_singleton.mp hf]
        exact ⟨by decide, by decide, by decide, by decide⟩
      · refine ⟨[1], [], [], rfl, by simp, ?_, List.Pairwise.nil, by simp⟩
        intro p hp
        rw [append_nil, mem_singleton] at hp
        rw [hp]
        exact fun h => ho h.symm
    · rw [mem_singleton.mp hp, mem_singleton.mp hq] at hne
      exact absurd rfl hne
  have hreq : 0 ∉ s.flock () := by decide
  have hcall : posixLockFile s () 0 (some 2) none =
      some ((applyLock s () 0 (some 2) none).1, .nolck) := rfl
  exact ⟨_, hcall, posixLockFile_fail hok hreq hcall LockResult.noConfusion 1 3⟩

end

end LinuxKernel.Fs
