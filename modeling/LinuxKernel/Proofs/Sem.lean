import LinuxKernel.Sem
import Mathlib.Data.List.Nodup
import Mathlib.Algebra.Order.BigOperators.Group.List
import Mathlib.Tactic.SplitIfs

/-!
# No sleeper that could proceed is left on a semaphore array

Whether an entry can proceed depends on its own semaphores only. So an entry that was blocked stays
blocked unless its semaphore went up, or down to zero with the entry waiting for zero; these are the
cases in which the queue is scanned again. A scan keeps the entries it has passed blocked, which is
what `check_restart` decides.
-/

namespace LinuxKernel.Ipc

open Function List

variable {i task : ℕ} {l walk : List SemQueue} {sops : List Sembuf} {q r : SemQueue}
  {adj adj' : ℕ → ℤ} {un semnum : Option ℕ} {pid : ℤ} {sma a b : SemArray} {listId : List ℕ}

lemma trySops_fail : ∀ (prev sops : List Sembuf) (semval : ℕ → ℤ),
    (trySops adj prev sops semval).2 ≠ .ok → (trySops adj prev sops semval).1 = undoSops prev semval
  | _, [], _, h => absurd rfl h
  | prev, sop :: sops, semval, h => by
    rw [trySops] at h ⊢
    split_ifs at h ⊢
    · rfl
    · rfl
    · rfl
    · rfl
    · rw [trySops_fail _ sops _ h, undoSops, update_self, update_idem,
        add_sub_cancel_right, update_eq_self]

def sumOn (i : ℕ) (sops : List Sembuf) : ℤ :=
  ((sops.filter fun sop => sop.semNum = i).map Sembuf.semOp).sum

lemma sumOn_cons (i : ℕ) (sop : Sembuf) (sops : List Sembuf) :
    sumOn i (sop :: sops) = (if sop.semNum = i then sop.semOp else 0) + sumOn i sops := by
  by_cases h : sop.semNum = i <;> simp [sumOn, h]

lemma trySops_ok : ∀ (prev sops : List Sembuf) (semval : ℕ → ℤ),
    (trySops adj prev sops semval).2 = .ok →
    (∀ i, (trySops adj prev sops semval).1 i = semval i + sumOn i sops)
      ∧ ((∀ i, 0 ≤ semval i ∧ semval i ≤ semvmx) →
          ∀ i, 0 ≤ (trySops adj prev sops semval).1 i ∧ (trySops adj prev sops semval).1 i ≤ semvmx)
  | _, [], semval, _ => ⟨fun i => by simp [trySops, sumOn], fun h => h⟩
  | prev, sop :: sops, semval, h => by
    rw [trySops] at h ⊢
    split_ifs at h with hblock hnowait hmax hadj
    rw [if_neg hblock, if_neg hmax, if_neg hadj]
    obtain ⟨hsum, hrange⟩ := trySops_ok _ sops _ h
    refine ⟨fun i => ?_, fun hr => hrange fun i => ?_⟩
    · rw [hsum i, sumOn_cons, update_apply]
      split_ifs with h1 h2 h2
      · rw [h1, add_assoc]
      · exact absurd h1.symm h2
      · exact absurd h2.symm h1
      · rw [zero_add]
    · rw [update_apply]
      split_ifs
      · exact ⟨not_lt.mp (not_or.mp hblock).2, not_lt.mp hmax⟩
      · exact hr i

lemma trySops_congr : ∀ (prev prev' sops : List Sembuf) (v w : ℕ → ℤ),
    (∀ sop ∈ sops, v sop.semNum = w sop.semNum ∧ adj sop.semNum = adj' sop.semNum) →
    (trySops adj prev sops v).2 = (trySops adj' prev' sops w).2
  | _, _, [], _, _, _ => rfl
  | prev, prev', sop :: sops, v, w, h => by
    obtain ⟨⟨hv, ha⟩, hrest⟩ := forall_mem_cons.mp h
    rw [trySops, trySops]
    simp only [hv, ha]
    split_ifs
    · rfl
    · rfl
    · rfl
    · rfl
    · refine trySops_congr _ _ sops _ _ fun s hs => ⟨?_, (hrest s hs).2⟩
      rw [update_apply, update_apply, (hrest s hs).1]

structure SameLists (a b : SemArray) : Prop where
  nsems : b.semNsems = a.semNsems
  simple : b.simple = a.simple
  pending : b.semPending = a.semPending
  complex : b.complexCount = a.complexCount
  listId : b.listId = a.listId

lemma SameLists.refl (a : SemArray) : SameLists a a := ⟨rfl, rfl, rfl, rfl, rfl⟩

lemma SameLists.trans {c : SemArray} (h : SameLists a b) (h' : SameLists b c) :
    SameLists a c :=
  ⟨h'.1.trans h.1, h'.2.trans h.2, h'.3.trans h.3, h'.4.trans h.4, h'.5.trans h.5⟩

lemma adjust_spec (un : Option ℕ) (sop : Sembuf) (sma : SemArray) :
    SameLists sma (adjust un sop sma) ∧ (adjust un sop sma).semval = sma.semval
      ∧ ∀ u i, (sop.semOp ≠ 0 → sop.semNum ≠ i) →
          (adjust un sop sma).semadj u i = sma.semadj u i := by
  cases un with
  | none => exact ⟨.refl sma, rfl, fun _ _ _ => rfl⟩
  | some un =>
    refine ⟨⟨rfl, rfl, rfl, rfl, rfl⟩, rfl, fun u i h => ?_⟩
    simp only [adjust, update_apply]
    split_ifs with hu
    · rw [update_apply, hu]
      split_ifs with hi
      · have h0 : sop.semOp = 0 := by
          by_contra hne
          exact h hne hi.symm
        rw [h0, hi]
        exact sub_zero _
      · rfl
    · rfl

lemma commitSops_spec (un : Option ℕ) (pid : ℤ) : ∀ (sops : List Sembuf) (sma : SemArray),
    SameLists sma (commitSops un pid sops sma) ∧ (commitSops un pid sops sma).semval = sma.semval
      ∧ ∀ u i, (∀ sop ∈ sops, sop.semOp ≠ 0 → sop.semNum ≠ i) →
          (commitSops un pid sops sma).semadj u i = sma.semadj u i
  | [], sma => ⟨.refl sma, rfl, fun _ _ _ => rfl⟩
  | sop :: sops, sma => by
    rw [commitSops]
    have hstep : ∀ b : SemArray, SameLists sma b → b.semval = sma.semval →
        (∀ u i, (sop.semOp ≠ 0 → sop.semNum ≠ i) → b.semadj u i = sma.semadj u i) →
        SameLists sma (commitSops un pid sops b) ∧ (commitSops un pid sops b).semval = sma.semval
          ∧ ∀ u i, (∀ s ∈ sop :: sops, s.semOp ≠ 0 → s.semNum ≠ i) →
            (commitSops un pid sops b).semadj u i = sma.semadj u i := by
      intro b hlists hval hadj
      obtain ⟨h1, h2, h3⟩ := commitSops_spec un pid sops b
      refine ⟨hlists.trans h1, h2.trans hval, fun u i h => ?_⟩
      obtain ⟨hsop, hrest⟩ := forall_mem_cons.mp h
      rw [h3 u i hrest, hadj u i hsop]
    split_ifs
    · obtain ⟨h1, h2, h3⟩ := adjust_spec un sop
        { sma with sempid := update sma.sempid sop.semNum pid }
      exact hstep _ ⟨h1.1, h1.2, h1.3, h1.4, h1.5⟩ h2 h3
    · exact hstep _ ⟨rfl, rfl, rfl, rfl, rfl⟩ rfl fun _ _ _ => rfl

lemma tryAtomicSemop_snd :
    (tryAtomicSemop sma sops un pid).2 = (trySops (sma.adjOf un) [] sops sma.semval).2 := by
  rw [tryAtomicSemop]
  split <;> rename_i h <;> rw [h]

lemma tryAtomicSemop_fail (h : (tryAtomicSemop sma sops un pid).2 ≠ .ok) :
    (tryAtomicSemop sma sops un pid).1 = sma := by
  rw [tryAtomicSemop_snd] at h
  have hfail := trySops_fail _ _ _ h
  rw [tryAtomicSemop]
  split
  · rename_i heq
    rw [heq] at h
    exact absurd rfl h
  · rename_i semval _ _ heq
    rw [heq] at hfail
    have hsame : semval = sma.semval := hfail
    rw [hsame]

structure Performed (a b : SemArray) (sops : List Sembuf) : Prop where
  lists : SameLists a b
  semval : ∀ i, b.semval i = a.semval i + sumOn i sops
  range : (∀ i, 0 ≤ a.semval i ∧ a.semval i ≤ semvmx) → ∀ i, 0 ≤ b.semval i ∧ b.semval i ≤ semvmx
  semadj : ∀ u i, (∀ sop ∈ sops, sop.semOp ≠ 0 → sop.semNum ≠ i) → b.semadj u i = a.semadj u i

lemma tryAtomicSemop_ok (h : (tryAtomicSemop sma sops un pid).2 = .ok) :
    Performed sma (tryAtomicSemop sma sops un pid).1 sops := by
  rw [tryAtomicSemop_snd] at h
  obtain ⟨hsum, hrange⟩ := trySops_ok _ _ _ h
  rw [tryAtomicSemop]
  split
  · rename_i semval heq
    rw [heq] at hsum hrange
    obtain ⟨h1, h2, h3⟩ := commitSops_spec un pid sops.reverse
      { sma with semval := semval }
    refine ⟨⟨h1.1, h1.2, h1.3, h1.4, h1.5⟩, ?_, ?_, fun u i hi => ?_⟩
    · rw [h2]
      exact hsum
    · rw [h2]
      exact hrange
    · exact h3 u i fun s hs => hi s (mem_reverse.mp hs)
  · rename_i hne heq
    rw [heq] at h
    exact (hne h).elim

lemma sumOn_reverse (i : ℕ) (sops : List Sembuf) : sumOn i sops.reverse = sumOn i sops := by
  unfold sumOn
  rw [filter_reverse, map_reverse, sum_reverse]

/-- When all operations succeed, each finds the value that those before it have left, is not kept
waiting by it and leaves one in range. -/
lemma trySops_steps : ∀ (prev sops : List Sembuf) (semval : ℕ → ℤ),
    (trySops adj prev sops semval).2 = .ok → ∀ pre sop post, sops = pre ++ sop :: post →
      (sop.semOp = 0 → semval sop.semNum + sumOn sop.semNum pre = 0)
        ∧ 0 ≤ semval sop.semNum + sumOn sop.semNum pre + sop.semOp
        ∧ semval sop.semNum + sumOn sop.semNum pre + sop.semOp ≤ semvmx
  | _, [], _, _, pre, _, _, heq => by simp at heq
  | prev, sop :: sops, semval, h, pre, sop', post, heq => by
    rw [trySops] at h
    split_ifs at h with hblock hnowait hmax hadj
    obtain ⟨hwait, hneg⟩ := not_or.mp hblock
    cases pre with
    | nil =>
      obtain ⟨rfl, rfl⟩ := List.cons.inj heq
      refine ⟨fun h0 => ?_, ?_, ?_⟩
      · simpa [sumOn] using not_and_not_right.mp hwait h0
      · simpa [sumOn] using hneg
      · simpa [sumOn] using hmax
    | cons first pre =>
      obtain ⟨rfl, rfl⟩ := List.cons.inj heq
      have hrest := trySops_steps _ _ _ h pre sop' post rfl
      rw [update_apply] at hrest
      have hsum := sumOn_cons sop'.semNum sop pre
      split_ifs at hrest hsum with h1 h2 h2
      · rw [h1] at hrest ⊢
        rw [h1] at hsum
        rw [hsum]
        simpa [add_assoc] using hrest
      · exact absurd h1.symm h2
      · exact absurd h2.symm h1
      · rw [hsum, zero_add]
        exact hrest

lemma commitSops_semadj (un : ℕ) (pid : ℤ) : ∀ (sops : List Sembuf) (sma : SemArray) (u i : ℕ),
    (commitSops (some un) pid sops sma).semadj u i =
      if u = un then sma.semadj u i - BitVec.ofInt 16 (sumOn i (sops.filter Sembuf.semUndo))
      else sma.semadj u i
  | [], sma, u, i => by simp [commitSops, sumOn]
  | sop :: sops, sma, u, i => by
    rw [commitSops, commitSops_semadj un pid sops]
    by_cases hundo : sop.semUndo
    · rw [if_pos hundo, filter_cons_of_pos hundo, sumOn_cons, BitVec.ofInt_add]
      simp only [adjust]
      by_cases hu : u = un
      · rw [if_pos hu, if_pos hu, hu, update_self, update_apply]
        by_cases hi : i = sop.semNum
        · rw [if_pos hi, if_pos hi.symm, hi]
          exact BitVec.sub_sub _ _ _
        · rw [if_neg hi, if_neg fun h => hi h.symm]
          simp
      · rw [if_neg hu, if_neg hu, update_of_ne hu]
    · rw [if_neg hundo, filter_cons_of_neg hundo]

lemma tryAtomicSemop_semadj {un : ℕ}
    (h : (tryAtomicSemop sma sops (some un) pid).2 = .ok) (u i : ℕ) :
    (tryAtomicSemop sma sops (some un) pid).1.semadj u i =
      if u = un then sma.semadj u i - BitVec.ofInt 16 (sumOn i (sops.filter Sembuf.semUndo))
      else sma.semadj u i := by
  rw [tryAtomicSemop_snd] at h
  rw [tryAtomicSemop]
  split
  · rw [commitSops_semadj, filter_reverse, sumOn_reverse]
  · rename_i hne heq
    rw [heq] at h
    exact (hne h).elim

/-- `try_atomic_semop` does all operations or none. -/
theorem tryAtomicSemop_atomic (sma : SemArray) (sops : List Sembuf) (un : ℕ) (pid : ℤ) :
    ((tryAtomicSemop sma sops (some un) pid).2 ≠ .ok →
      (tryAtomicSemop sma sops (some un) pid).1.semval = sma.semval
        ∧ (tryAtomicSemop sma sops (some un) pid).1.semadj = sma.semadj) ∧
    ((tryAtomicSemop sma sops (some un) pid).2 = .ok →
      (∀ i, (tryAtomicSemop sma sops (some un) pid).1.semval i = sma.semval i + sumOn i sops)
        ∧ (∀ pre sop post, sops = pre ++ sop :: post →
          (sop.semOp = 0 → sma.semval sop.semNum + sumOn sop.semNum pre = 0)
            ∧ 0 ≤ sma.semval sop.semNum + sumOn sop.semNum pre + sop.semOp
            ∧ sma.semval sop.semNum + sumOn sop.semNum pre + sop.semOp ≤ semvmx)
        ∧ ∀ u i, (tryAtomicSemop sma sops (some un) pid).1.semadj u i =
          if u = un then sma.semadj u i - BitVec.ofInt 16 (sumOn i (sops.filter Sembuf.semUndo))
          else sma.semadj u i) := by
  refine ⟨fun h => ?_, fun h => ⟨(tryAtomicSemop_ok h).semval, ?_, tryAtomicSemop_semadj h⟩⟩
  · rw [tryAtomicSemop_fail h]
    exact ⟨rfl, rfl⟩
  · rw [tryAtomicSemop_snd] at h
    exact trySops_steps _ _ _ h

/-- `try_atomic_semop` returns 1 for the entry. -/
def Blocked (sma : SemArray) (q : SemQueue) : Prop :=
  (tryAtomicSemop sma q.sops q.undo q.pid).2 = .sleep

instance (sma : SemArray) (q : SemQueue) : Decidable (Blocked sma q) :=
  inferInstanceAs (Decidable (_ = _))

lemma blocked_congr (hval : ∀ sop ∈ q.sops, a.semval sop.semNum = b.semval sop.semNum)
    (hadj : ∀ u, q.undo = some u → ∀ sop ∈ q.sops, a.semadj u sop.semNum = b.semadj u sop.semNum) :
    Blocked a q ↔ Blocked b q := by
  rw [Blocked, Blocked, tryAtomicSemop_snd, tryAtomicSemop_snd]
  have heq : (trySops (a.adjOf q.undo) [] q.sops a.semval).2
      = (trySops (b.adjOf q.undo) [] q.sops b.semval).2 := by
    refine trySops_congr [] [] q.sops a.semval b.semval fun sop hsop => ⟨hval sop hsop, ?_⟩
    cases hu : q.undo with
    | none => rfl
    | some u => simp only [SemArray.adjOf, hadj u hu sop hsop]
  rw [heq]

/-- What is known of an entry on the queue, whatever the values of the semaphores are. -/
structure EntryOk (listId : List ℕ) (q : SemQueue) : Prop where
  nonempty : q.sops ≠ []
  alter : q.alter = true ↔ ∃ sop ∈ q.sops, sop.semOp ≠ 0
  simple : ∀ sop, q.sops = [sop] → sop.semOp ≤ 0 ∧ sop.ipcNowait = false
  undo : ∀ un, q.undo = some un → un ∈ listId

lemma EntryOk.nsops_pos (h : EntryOk listId q) : 0 < q.nsops := length_pos_of_ne_nil h.nonempty

lemma exists_sop (h1 : q.nsops = 1) :
    ∃ sop, q.sops = [sop] ∧ q.semNum = sop.semNum ∧ q.semOp = sop.semOp := by
  obtain ⟨sop, hsop⟩ := length_eq_one_iff.mp h1
  exact ⟨sop, hsop, by rw [SemQueue.semNum, hsop]; rfl, by rw [SemQueue.semOp, hsop]; rfl⟩

lemma EntryOk.semOp_nonpos (h : EntryOk listId q) (h1 : q.nsops = 1) : q.semOp ≤ 0 := by
  obtain ⟨sop, hsop, -, hop⟩ := exists_sop h1
  rw [hop]
  exact (h.simple sop hsop).1

lemma EntryOk.alter_iff (h : EntryOk listId q) (h1 : q.nsops = 1) :
    q.alter = true ↔ q.semOp ≠ 0 := by
  obtain ⟨sop, hsop, -, hop⟩ := exists_sop h1
  rw [h.alter, hsop, hop]
  simp

lemma EntryOk.blocked_iff (h : EntryOk listId q) (h1 : q.nsops = 1) :
    Blocked sma q ↔ q.semOp = 0 ∧ sma.semval q.semNum ≠ 0 ∨ sma.semval q.semNum + q.semOp < 0 := by
  obtain ⟨sop, hsop, hnum, hop⟩ := exists_sop h1
  rw [Blocked, tryAtomicSemop_snd, hsop, hnum, hop, trySops, trySops]
  simp only [(h.simple sop hsop).2, Bool.false_eq_true, if_false]
  split_ifs with hb <;> simp [hb]

def isOn (i : ℕ) (q : SemQueue) : Bool := decide (q.nsops = 1 ∧ q.semNum = i)

lemma isOn_iff : isOn i q = true ↔ q.nsops = 1 ∧ q.semNum = i := decide_eq_true_iff

lemma mem_listDel :
    r ∈ listDel q l ↔ r ∈ l ∧ r.sleeper ≠ q.sleeper := by
  rw [listDel, mem_filter, decide_eq_true_iff]

lemma listDel_eq_erase (hl : (l.map SemQueue.sleeper).Nodup) (hq : q ∈ l) :
    listDel q l = l.erase q := by
  rw [Nodup.erase_eq_filter hl.of_map, listDel]
  refine filter_congr fun r hr => ?_
  rw [Bool.eq_iff_iff, decide_eq_true_iff, bne_iff_ne]
  exact not_congr ⟨fun h => inj_on_of_nodup_map hl hr hq h, fun h => by rw [h]⟩

/-- The lists of the array agree, with those that only wait first, and the values are in range. -/
structure SemInv (sma : SemArray) : Prop where
  range : ∀ i, 0 ≤ sma.semval i ∧ sma.semval i ≤ semvmx
  lists : ∀ i, sma.simple i = sma.semPending.filter (isOn i)
  order : sma.semPending.Pairwise fun q r => q.alter = true → r.alter = true
  names : (sma.semPending.map SemQueue.sleeper).Nodup
  entries : ∀ q ∈ sma.semPending, EntryOk sma.listId q
  complex : sma.complexCount = sma.semPending.countP fun q => decide (1 < q.nsops)

lemma SemInv.congr (h : SemInv a) (hl : SameLists a b)
    (hr : ∀ i, 0 ≤ b.semval i ∧ b.semval i ≤ semvmx) : SemInv b := by
  refine ⟨hr, ?_, ?_, ?_, ?_, ?_⟩
  · rw [hl.simple, hl.pending]
    exact h.lists
  · rw [hl.pending]
    exact h.order
  · rw [hl.pending]
    exact h.names
  · rw [hl.pending, hl.listId]
    exact h.entries
  · rw [hl.complex, hl.pending]
    exact h.complex

lemma SemInv.simple_of_complex (h : SemInv sma) (h0 : sma.complexCount = 0)
    (hq : q ∈ sma.semPending) : q.nsops = 1 := by
  rw [h.complex, Int.natCast_eq_zero, countP_eq_zero] at h0
  have := h0 q hq
  have := (h.entries q hq).nsops_pos
  simp only [decide_eq_true_iff] at *
  omega

lemma unlinkQueue_pending : (unlinkQueue sma q).semPending = listDel q sma.semPending := by
  rw [unlinkQueue]
  split_ifs <;> rfl

lemma unlinkQueue_semval : (unlinkQueue sma q).semval = sma.semval := by
  rw [unlinkQueue]
  split_ifs <;> rfl

lemma unlinkQueue_semadj : (unlinkQueue sma q).semadj = sma.semadj := by
  rw [unlinkQueue]
  split_ifs <;> rfl

lemma unlinkQueue_listId : (unlinkQueue sma q).listId = sma.listId := by
  rw [unlinkQueue]
  split_ifs <;> rfl

lemma SemInv.unlinkQueue (h : SemInv sma) (hq : q ∈ sma.semPending) :
    SemInv (unlinkQueue sma q) := by
  have hsub : (listDel q sma.semPending).Sublist sma.semPending := filter_sublist
  have hpos := (h.entries q hq).nsops_pos
  constructor
  · rw [unlinkQueue_semval]
    exact h.range
  · intro i
    rw [unlinkQueue_pending, listDel, filter_filter]
    have hcomm : (sma.semPending.filter fun r => isOn i r && decide (r.sleeper ≠ q.sleeper)) =
        listDel q (sma.simple i) := by
      rw [h.lists, listDel, filter_filter]
      exact filter_congr fun r _ => Bool.and_comm _ _
    rw [hcomm, Ipc.unlinkQueue]
    by_cases hon : isOn i q = true
    · obtain ⟨h1, rfl⟩ := isOn_iff.mp hon
      rw [if_pos h1]
      exact update_self ..
    -- the entry is not on this list
    have hkeep : listDel q (sma.simple i) = sma.simple i := by
      rw [listDel, filter_eq_self]
      intro r hr
      rw [h.lists, mem_filter] at hr
      rw [decide_eq_true_iff]
      intro hname
      rw [inj_on_of_nodup_map h.names hr.1 hq hname] at hr
      exact hon hr.2
    rw [hkeep]
    split_ifs with h1
    · have hne : i ≠ q.semNum := fun hi => hon (isOn_iff.mpr ⟨h1, hi.symm⟩)
      exact update_of_ne hne _ _
    · rfl
  · rw [unlinkQueue_pending]
    exact h.order.sublist hsub
  · rw [unlinkQueue_pending]
    exact h.names.sublist (hsub.map _)
  · rw [unlinkQueue_pending, unlinkQueue_listId]
    exact fun r hr => h.entries r (mem_listDel.mp hr).1
  · rw [unlinkQueue_pending, listDel_eq_erase h.names hq, countP_erase]
    have hcount : 1 < q.nsops → 0 < sma.semPending.countP fun r => decide (1 < r.nsops) :=
      fun h1 => countP_pos_iff.mpr ⟨q, hq, decide_eq_true h1⟩
    have hcomplex := h.complex
    rw [Ipc.unlinkQueue]
    split_ifs with h1 h2 h2
    · simp only [decide_eq_true_iff] at h2
      omega
    · simpa using hcomplex
    · simp only [decide_eq_true_iff] at h2
      have := hcount h2.2
      simp only
      omega
    · simp only [decide_eq_true_iff, hq, true_and] at h2
      omega

lemma SemInv.mem_simple (h : SemInv sma) :
    r ∈ sma.simple i ↔ r ∈ sma.semPending ∧ r.nsops = 1 ∧ r.semNum = i := by
  rw [h.lists, mem_filter, isOn_iff]

lemma SemInv.alter_of_head (h : SemInv sma)
    (hl : sma.simple i = q :: l) (hq : q.alter = true) : ∀ r ∈ sma.simple i, r.alter = true := by
  have hp : (sma.simple i).Pairwise fun q r => q.alter = true → r.alter = true := by
    rw [h.lists]
    exact h.order.sublist filter_sublist
  rw [hl] at hp ⊢
  intro r hr
  rcases mem_cons.mp hr with rfl | hr
  · exact hq
  · exact (pairwise_cons.mp hp).1 r hr hq

lemma EntryOk.blocked_zero (h : EntryOk listId q) (h1 : q.nsops = 1)
    (halter : q.alter = true) (h0 : sma.semval q.semNum = 0) : Blocked sma q := by
  have hne := (h.alter_iff h1).mp halter
  have hle := h.semOp_nonpos h1
  rw [h.blocked_iff h1, h0]
  omega

lemma sumOn_eq_zero
    (h : ∀ sop ∈ sops, sop.semNum = i → sop.semOp = 0) :
    sumOn i sops = 0 := by
  refine sum_eq_zero fun x hx => ?_
  obtain ⟨sop, hsop, rfl⟩ := mem_map.mp hx
  obtain ⟨hmem, hnum⟩ := mem_filter.mp hsop
  exact h sop hmem (by simpa using hnum)

lemma Performed.blocked_of_zero (h : Performed a b sops)
    (h0 : ∀ sop ∈ sops, sop.semOp = 0) : Blocked a r ↔ Blocked b r := by
  refine blocked_congr (fun s _ => ?_) fun u _ s _ => ?_
  · rw [h.semval, sumOn_eq_zero fun sop hsop _ => h0 sop hsop, add_zero]
  · exact (h.semadj u _ fun sop hsop hne => absurd (h0 sop hsop) hne).symm

lemma blocked_unlinkQueue : Blocked (unlinkQueue sma q) r ↔ Blocked sma r :=
  blocked_congr (fun _ _ => by rw [unlinkQueue_semval]) fun _ _ _ _ => by rw [unlinkQueue_semadj]

lemma checkRestart_spec (h : SemInv a) (hq : q ∈ a.semPending) (hp : Performed a b q.sops)
    (hb : SemInv (unlinkQueue b q)) :
    ∃ again, checkRestart (unlinkQueue b q) q = some again
      ∧ (again = false → ∀ r ∈ (unlinkQueue b q).semPending, Blocked a r →
          Blocked (unlinkQueue b q) r) := by
  have hok := h.entries q hq
  rw [checkRestart]
  by_cases halter : q.alter = false
  · rw [if_pos halter]
    refine ⟨false, rfl, fun _ r _ hr => ?_⟩
    rw [blocked_unlinkQueue, ← hp.blocked_of_zero]
    · exact hr
    · intro sop hsop
      by_contra hne
      rw [hok.alter.mpr ⟨sop, hsop, hne⟩] at halter
      exact Bool.noConfusion halter
  rw [Bool.not_eq_false] at halter
  rw [if_neg (by simp [halter])]
  by_cases hcomplex : (unlinkQueue b q).complexCount ≠ 0
  · rw [if_pos hcomplex]
    exact ⟨true, rfl, fun hf => absurd hf (by decide)⟩
  rw [if_neg hcomplex]
  rw [not_not] at hcomplex
  by_cases hn : 1 < q.nsops
  · rw [if_pos hn]
    exact ⟨true, rfl, fun hf => absurd hf (by decide)⟩
  rw [if_neg hn]
  -- a simple entry: it was a decrement, and only its own semaphore went down
  have h1 : q.nsops = 1 := by have := hok.nsops_pos; omega
  have hdec : q.semOp < 0 := lt_of_le_of_ne (hok.semOp_nonpos h1) ((hok.alter_iff h1).mp halter)
  obtain ⟨sop, hsop, hnum, hop⟩ := exists_sop h1
  have hval : ∀ i, (unlinkQueue b q).semval i =
      a.semval i + if q.semNum = i then q.semOp else 0 := fun i => by
    rw [unlinkQueue_semval, hp.semval, hsop, sumOn_cons, hnum, hop]
    simp [sumOn]
  have hother : ∀ r ∈ (unlinkQueue b q).semPending, r.semNum ≠ q.semNum → Blocked a r →
      Blocked (unlinkQueue b q) r := by
    intro r hr hne hblocked
    have hr1 := hb.simple_of_complex hcomplex hr
    rw [(hb.entries r hr).blocked_iff hr1] at hblocked ⊢
    rw [hval, if_neg hne.symm, add_zero]
    exact hblocked
  cases hlist : (unlinkQueue b q).simple q.semNum with
  | nil =>
    refine ⟨false, rfl, fun _ r hr => hother r hr fun hsame => ?_⟩
    have := hb.mem_simple.mpr ⟨hr, hb.simple_of_complex hcomplex hr, hsame⟩
    rw [hlist] at this
    exact not_mem_nil this
  | cons hd tl =>
    have hhd := hb.mem_simple.mp (by rw [hlist]; exact mem_cons_self)
    simp only
    by_cases hzero : (unlinkQueue b q).semval q.semNum ≠ 0
    · rw [if_pos hzero, if_neg (by omega)]
      refine ⟨false, rfl, fun _ r hr hblocked => ?_⟩
      by_cases hsame : r.semNum = q.semNum
      · have hr1 := hb.simple_of_complex hcomplex hr
        rw [(hb.entries r hr).blocked_iff hr1, hsame] at hblocked ⊢
        have := hval q.semNum
        rw [if_pos rfl] at this
        omega
      · exact hother r hr hsame hblocked
    · rw [if_neg hzero, if_neg (not_not.mpr hhd.2.1), if_neg (not_not.mpr hhd.2.2)]
      rw [not_not] at hzero
      by_cases hwait : hd.semOp = 0
      · rw [if_pos hwait]
        exact ⟨true, rfl, fun hf => absurd hf (by decide)⟩
      rw [if_neg hwait]
      refine ⟨false, rfl, fun _ r hr hblocked => ?_⟩
      by_cases hsame : r.semNum = q.semNum
      · have hr1 := hb.simple_of_complex hcomplex hr
        have hhead := ((hb.entries hd hhd.1).alter_iff hhd.2.1).mpr hwait
        have hra := hb.alter_of_head hlist hhead r (hb.mem_simple.mpr ⟨hr, hr1, hsame⟩)
        exact (hb.entries r hr).blocked_zero hr1 hra (by rw [hsame]; exact hzero)
      · exact hother r hr hsame hblocked

/-- What a scan keeps: it takes entries off the queue, and if it scans one semaphore, it changes
that one only. -/
structure Scanned (semnum : Option ℕ) (a b : SemArray) : Prop where
  inv : SemInv b
  pending : b.semPending.Sublist a.semPending
  nsems : b.semNsems = a.semNsems
  listId : b.listId = a.listId
  others : ∀ s, semnum = some s → ∀ i, i ≠ s → b.semval i = a.semval i

lemma Scanned.refl (h : SemInv a) : Scanned semnum a a :=
  ⟨h, Sublist.refl _, rfl, rfl, fun _ _ _ _ => rfl⟩

lemma Scanned.trans {c : SemArray} (h : Scanned semnum a b)
    (h' : Scanned semnum b c) : Scanned semnum a c :=
  ⟨h'.inv, h'.pending.trans h.pending, h'.nsems.trans h.nsems, h'.listId.trans h.listId,
    fun s hs i hi => (h'.others s hs i hi).trans (h.others s hs i hi)⟩

lemma Scanned.complex (ha : SemInv a) (h : Scanned semnum a b)
    (h0 : a.complexCount = 0) : b.complexCount = 0 := by
  rw [h.inv.complex, Int.natCast_eq_zero, countP_eq_zero]
  intro q hq
  have := ha.simple_of_complex h0 (h.pending.subset hq)
  simp [this]

lemma unlinkQueue_nsems : (unlinkQueue sma q).semNsems = sma.semNsems := by
  rw [unlinkQueue]
  split_ifs <;> rfl

lemma Scanned.unlinkQueue (h : SemInv a) (hq : q ∈ a.semPending) :
    Scanned semnum a (unlinkQueue a q) := by
  refine ⟨h.unlinkQueue hq, ?_, unlinkQueue_nsems, unlinkQueue_listId, fun _ _ _ _ => ?_⟩
  · rw [unlinkQueue_pending]
    exact filter_sublist
  · rw [unlinkQueue_semval]

lemma mem_pendingList (h : SemInv sma) (hr : r ∈ pendingList sma semnum) :
    r ∈ sma.semPending := by
  cases semnum with
  | none => exact hr
  | some s => exact (h.mem_simple.mp hr).1

lemma Performed.scanned (h : SemInv a) (hq : q ∈ pendingList a semnum)
    (hp : Performed a b q.sops) : Scanned semnum a (Ipc.unlinkQueue b q) := by
  have hb : SemInv b := h.congr hp.lists (hp.range h.range)
  have hqb : q ∈ b.semPending := by rw [hp.lists.pending]; exact mem_pendingList h hq
  have hs : Scanned semnum b (Ipc.unlinkQueue b q) := .unlinkQueue hb hqb
  refine ⟨hs.inv, ?_, hs.nsems.trans hp.lists.nsems, hs.listId.trans hp.lists.listId,
    fun s hsome i hi => ?_⟩
  · rw [← hp.lists.pending]
    exact hs.pending
  subst hsome
  obtain ⟨-, h1, hnum⟩ := h.mem_simple.mp hq
  obtain ⟨sop, hsop, hsopnum, -⟩ := exists_sop h1
  rw [hs.others s rfl i hi, hp.semval, hsop, sumOn_eq_zero, add_zero]
  intro sop' hmem hnum'
  rw [mem_singleton.mp hmem] at hnum'
  exact absurd (hnum'.symm.trans (hsopnum.symm.trans hnum)) hi

lemma pendingList_unlinkQueue (h : SemInv sma) (hq : q ∈ pendingList sma semnum) :
    pendingList (unlinkQueue sma q) semnum = listDel q (pendingList sma semnum) := by
  cases semnum with
  | none => exact unlinkQueue_pending
  | some s =>
    obtain ⟨-, h1, rfl⟩ := h.mem_simple.mp hq
    rw [unlinkQueue, if_pos h1]
    exact update_self ..

lemma pendingList_sublist (h : SemInv sma) :
    (pendingList sma semnum).Sublist sma.semPending := by
  cases semnum with
  | none => exact Sublist.refl _
  | some s =>
    rw [pendingList, h.lists]
    exact filter_sublist

lemma sublist_listDel (hl : (l.map SemQueue.sleeper).Nodup)
    (h : (q :: walk).Sublist l) : walk.Sublist (listDel q l) := by
  have hnd := hl.sublist (h.map _)
  rw [map_cons, nodup_cons] at hnd
  have hself : listDel q (q :: walk) = walk := by
    rw [listDel, filter_cons_of_neg (by simp), filter_eq_self]
    intro r hr
    rw [decide_eq_true_iff]
    exact fun hname => hnd.1 (hname ▸ mem_map_of_mem hr)
  rw [← hself]
  exact h.filter _

lemma length_unlinkQueue_lt (hq : q ∈ sma.semPending) :
    (unlinkQueue sma q).semPending.length < sma.semPending.length := by
  rw [unlinkQueue_pending]
  exact length_filter_lt_length_iff_exists.mpr ⟨q, hq, by simp⟩

lemma walk_unlink (h : SemInv a)
    (hwalk : (q :: walk).Sublist (pendingList a semnum))
    (hpassed : ∀ r ∈ pendingList a semnum, r ∉ q :: walk → Blocked a r)
    (hlists : SameLists a b) (hkeep : ∀ r ∈ (unlinkQueue b q).semPending, Blocked a r →
      Blocked (unlinkQueue b q) r) (hb : SemInv b) :
    walk.Sublist (pendingList (unlinkQueue b q) semnum)
      ∧ ∀ r ∈ pendingList (unlinkQueue b q) semnum, r ∉ walk → Blocked (unlinkQueue b q) r := by
  have hlist : pendingList b semnum = pendingList a semnum := by
    cases semnum with
    | none => exact hlists.pending
    | some s => rw [pendingList, pendingList, hlists.simple]
  have hq : q ∈ pendingList b semnum := by rw [hlist]; exact hwalk.subset mem_cons_self
  have hnames : ((pendingList a semnum).map SemQueue.sleeper).Nodup :=
    h.names.sublist ((pendingList_sublist h).map _)
  rw [pendingList_unlinkQueue hb hq, hlist]
  refine ⟨sublist_listDel hnames hwalk, fun r hr hnot => hkeep r ?_ ?_⟩
  · rw [unlinkQueue_pending]
    exact mem_listDel.mpr ⟨mem_pendingList hb (by rw [hlist]; exact (mem_listDel.mp hr).1),
      (mem_listDel.mp hr).2⟩
  · refine hpassed r (mem_listDel.mp hr).1 fun hmem => ?_
    rcases mem_cons.mp hmem with rfl | hmem
    · exact (mem_listDel.mp hr).2 rfl
    · exact hnot hmem

lemma walkQueue_spec (semnum : Option ℕ) : ∀ (walk : List SemQueue) (u : Update), SemInv u.sma →
    walk.Sublist (pendingList u.sma semnum) →
    (∀ r ∈ pendingList u.sma semnum, r ∉ walk → Blocked u.sma r) →
    ∃ u' again, walkQueue semnum walk u = some (u', again) ∧ Scanned semnum u.sma u'.sma
      ∧ (again = false → ∀ r ∈ pendingList u'.sma semnum, Blocked u'.sma r)
      ∧ (again = true → u'.sma.semPending.length < u.sma.semPending.length)
  | [], u, h, _, hpassed =>
    ⟨u, false, rfl, .refl h, fun _ r hr => hpassed r hr not_mem_nil,
      fun hf => absurd hf (by decide)⟩
  | q :: walk, u, h, hwalk, hpassed => by
    have hql : q ∈ pendingList u.sma semnum := hwalk.subset mem_cons_self
    have hq : q ∈ u.sma.semPending := mem_pendingList h hql
    rw [walkQueue]
    by_cases hbreak : (atZero u.sma semnum && q.alter) = true
    · -- the rest of the list waits for a value above zero
      rw [if_pos hbreak]
      refine ⟨u, false, rfl, .refl h, fun _ r hr => ?_, fun hf => absurd hf (by decide)⟩
      by_cases hmem : r ∈ q :: walk
      · obtain ⟨hzero, halter⟩ := (Bool.and_eq_true _ _).mp hbreak
        have hra : r.alter = true := by
          rcases mem_cons.mp hmem with rfl | hmem
          · exact halter
          · have hp := h.order.sublist (hwalk.trans (pendingList_sublist h))
            exact (pairwise_cons.mp hp).1 r hmem halter
        cases semnum with
        | none => exact absurd hzero (by simp [atZero])
        | some s =>
          obtain ⟨hrp, hr1, hnum⟩ := h.mem_simple.mp hr
          refine (h.entries r hrp).blocked_zero hr1 hra ?_
          rw [hnum]
          exact of_decide_eq_true hzero
      · exact hpassed r hr hmem
    rw [if_neg hbreak]
    cases htry : tryAtomicSemop u.sma q.sops q.undo q.pid with
    | mk sma res =>
      have hres : (tryAtomicSemop u.sma q.sops q.undo q.pid).2 = res := by rw [htry]
      have hsma : (tryAtomicSemop u.sma q.sops q.undo q.pid).1 = sma := by rw [htry]
      cases res with
      | sleep =>
        have hsame : sma = u.sma := by
          rw [← hsma]
          exact tryAtomicSemop_fail (by rw [hres]; decide)
        subst hsame
        refine walkQueue_spec semnum walk ⟨u.sma, u.pt, u.completed⟩ h
          ((sublist_cons_self q walk).trans hwalk) fun r hr hnot => ?_
        by_cases hrq : r = q
        · rw [hrq]
          exact hres
        · exact hpassed r hr (by simp [hrq, hnot])
      | ok =>
        have hp : Performed u.sma sma q.sops := by
          rw [← hsma]
          exact tryAtomicSemop_ok hres
        have hb : SemInv sma := h.congr hp.lists (hp.range h.range)
        have hscan := hp.scanned h hql
        obtain ⟨again, hcheck, hkeep⟩ := checkRestart_spec h hq hp hscan.inv
        simp only [hcheck]
        cases again with
        | true =>
          refine ⟨_, true, rfl, hscan, fun hf => absurd hf (by decide), fun _ => ?_⟩
          rw [← hp.lists.pending]
          exact length_unlinkQueue_lt (by rw [hp.lists.pending]; exact hq)
        | false =>
          obtain ⟨hw, hpass⟩ := walk_unlink h hwalk hpassed hp.lists (hkeep rfl) hb
          obtain ⟨u', again, hrest, hs, hfin, hlt⟩ := walkQueue_spec semnum walk
            ⟨unlinkQueue sma q, u.pt ++ [(q, .ok)], true⟩ hscan.inv hw hpass
          exact ⟨u', again, hrest, hscan.trans hs, hfin,
            fun ha => lt_of_lt_of_le (hlt ha) hscan.pending.length_le⟩
      | again | range | inval | fbig =>
        have hsame : sma = u.sma := by
          rw [← hsma]
          exact tryAtomicSemop_fail (by rw [hres]; decide)
        subst hsame
        have hscan : Scanned semnum u.sma (unlinkQueue u.sma q) := .unlinkQueue h hq
        obtain ⟨hw, hpass⟩ := walk_unlink h hwalk hpassed (.refl _)
          (fun r _ hr => blocked_unlinkQueue.mpr hr) h
        obtain ⟨u', again, hrest, hs, hfin, hlt⟩ := walkQueue_spec semnum walk
          ⟨unlinkQueue u.sma q, u.pt ++ [(q, _)], u.completed⟩ hscan.inv hw hpass
        exact ⟨u', again, hrest, hscan.trans hs, hfin,
          fun ha => lt_of_lt_of_le (hlt ha) hscan.pending.length_le⟩

lemma scanQueue_spec (semnum : Option ℕ) : ∀ (n : ℕ) (u : Update), SemInv u.sma →
    u.sma.semPending.length < n → ∃ u', scanQueue semnum n u = some u' ∧ Scanned semnum u.sma u'.sma
      ∧ ∀ r ∈ pendingList u'.sma semnum, Blocked u'.sma r
  | 0, _, _, hn => absurd hn (Nat.not_lt_zero _)
  | n + 1, u, h, hn => by
    obtain ⟨u1, again, hwalk, hs, hfin, hlt⟩ := walkQueue_spec semnum _ u h (Sublist.refl _)
      fun r hr hnot => absurd hr hnot
    rw [scanQueue, hwalk]
    cases again with
    | false => exact ⟨u1, rfl, hs, hfin rfl⟩
    | true =>
      have := hlt rfl
      obtain ⟨u', hscan, hs', hfin'⟩ := scanQueue_spec semnum n u1 hs.inv (by omega)
      exact ⟨u', hscan, hs.trans hs', hfin'⟩

lemma updateQueue_all (h : SemInv sma) (pt : Tasks) :
    ∃ u, updateQueue sma none pt = some u ∧ Scanned none sma u.sma
      ∧ ∀ r ∈ u.sma.semPending, Blocked u.sma r := by
  rw [updateQueue, ite_self]
  exact scanQueue_spec none _ ⟨sma, pt, false⟩ h (Nat.lt_succ_self _)

lemma updateQueue_one (h : SemInv sma) (h0 : sma.complexCount = 0) (semnum : ℕ) (pt : Tasks) :
    ∃ u, updateQueue sma (some semnum) pt = some u ∧ Scanned (some semnum) sma u.sma
      ∧ ∀ r ∈ u.sma.simple semnum, Blocked u.sma r := by
  rw [updateQueue, if_neg (not_not.mpr h0)]
  exact scanQueue_spec (some semnum) _ ⟨sma, pt, false⟩ h (Nat.lt_succ_self _)

/-- The loop over the operations performed: an entry that could proceed is on a semaphore that one
of the operations left has raised, or has taken to zero. -/
lemma updateSops_spec : ∀ (sops : List Sembuf) (sma : SemArray) (pt : Tasks) (otime : Bool),
    SemInv sma → sma.complexCount = 0 →
    (∀ r ∈ sma.semPending, Blocked sma r ∨ ∃ sop ∈ sops, sop.semNum = r.semNum
      ∧ (0 < sop.semOp ∨ sop.semOp < 0 ∧ sma.semval sop.semNum = 0)) →
    ∃ res, updateSops sops sma pt otime = some res ∧ Scanned none sma res.1
      ∧ ∀ r ∈ res.1.semPending, Blocked res.1 r
  | [], sma, pt, otime, h, _, hdirty => by
    refine ⟨_, rfl, .refl h, fun r hr => ?_⟩
    rcases hdirty r hr with hb | ⟨sop, hsop, -⟩
    · exact hb
    · exact absurd hsop not_mem_nil
  | sop :: sops, sma, pt, otime, h, h0, hdirty => by
    rw [updateSops]
    split_ifs with hscan
    · obtain ⟨u, hu, hs, hfin⟩ := updateQueue_one h h0 sop.semNum pt
      have h0' := hs.complex h h0
      have hdirty' : ∀ r ∈ u.sma.semPending, Blocked u.sma r ∨ ∃ sop ∈ sops, sop.semNum = r.semNum
          ∧ (0 < sop.semOp ∨ sop.semOp < 0 ∧ u.sma.semval sop.semNum = 0) := by
        intro r hr
        have hr1 := hs.inv.simple_of_complex h0' hr
        by_cases hnum : r.semNum = sop.semNum
        · exact .inl (hfin r (hs.inv.mem_simple.mpr ⟨hr, hr1, hnum⟩))
        -- the other semaphores are as before
        rcases hdirty r (hs.pending.subset hr) with hb | ⟨s, hmem, hs1, hs2⟩
        · left
          rw [(hs.inv.entries r hr).blocked_iff hr1] at hb ⊢
          rw [hs.others _ rfl _ hnum]
          exact hb
        · rcases mem_cons.mp hmem with rfl | hmem
          · exact absurd hs1.symm hnum
          · right
            refine ⟨s, hmem, hs1, ?_⟩
            rw [hs.others _ rfl s.semNum (by rw [hs1]; exact hnum)]
            exact hs2
      obtain ⟨res, hres, hs', hblocked⟩ :=
        updateSops_spec sops u.sma u.pt (otime || u.completed) hs.inv h0' hdirty'
      rw [hu]
      exact ⟨res, hres, ⟨hs'.inv, hs'.pending.trans hs.pending, hs'.nsems.trans hs.nsems,
        hs'.listId.trans hs.listId, fun _ hn => by cases hn⟩, hblocked⟩
    · refine updateSops_spec sops sma pt otime h h0 fun r hr => ?_
      rcases hdirty r hr with hb | ⟨s, hmem, hs1, hs2⟩
      · exact .inl hb
      · rcases mem_cons.mp hmem with rfl | hmem
        · exact absurd hs2 hscan
        · exact .inr ⟨s, hmem, hs1, hs2⟩

/-- No entry on the queue could proceed. -/
structure Settled (sma : SemArray) : Prop where
  inv : SemInv sma
  blocked : ∀ q ∈ sma.semPending, Blocked sma q

lemma settled_setOtime (h : Settled sma) (otime : Bool) (now : ℕ) :
    Settled (setOtime sma otime now) := by
  rw [setOtime]
  split_ifs
  · refine ⟨h.inv.congr ⟨rfl, rfl, rfl, rfl, rfl⟩ h.inv.range, fun q hq => ?_⟩
    refine (blocked_congr ?_ ?_).mp (h.blocked q hq)
    · exact fun _ _ => rfl
    · exact fun _ _ _ _ => rfl
  · exact h

lemma doSmartUpdate_none (h : SemInv sma) (otime : Bool) (now : ℕ) :
    ∃ res, doSmartUpdate sma none otime now = some res ∧ Settled res.1 := by
  obtain ⟨u, hu, hs, hblocked⟩ := updateQueue_all h []
  rw [doSmartUpdate, if_pos (.inr rfl), hu]
  exact ⟨_, rfl, settled_setOtime ⟨hs.inv, hblocked⟩ _ _⟩

lemma exists_neg_of_sumOn (h : sumOn i sops < 0) :
    ∃ sop ∈ sops, sop.semNum = i ∧ sop.semOp < 0 := by
  obtain ⟨sop, hsop, hop⟩ :=
    exists_lt_of_sum_lt Sembuf.semOp (fun _ => 0) (by simpa [sumOn] using h)
  obtain ⟨hmem, hnum⟩ := mem_filter.mp hsop
  exact ⟨sop, hmem, of_decide_eq_true hnum, hop⟩

lemma exists_pos_of_sumOn (h : 0 < sumOn i sops) :
    ∃ sop ∈ sops, sop.semNum = i ∧ 0 < sop.semOp := by
  obtain ⟨sop, hsop, hop⟩ :=
    exists_lt_of_sum_lt (fun _ => 0) Sembuf.semOp (by simpa [sumOn] using h)
  obtain ⟨hmem, hnum⟩ := mem_filter.mp hsop
  exact ⟨sop, hmem, of_decide_eq_true hnum, hop⟩

lemma Performed.dirty (hp : Performed a b sops)
    (hok : EntryOk listId r) (h1 : r.nsops = 1) (hr : Blocked a r) :
    Blocked b r ∨ ∃ sop ∈ sops, sop.semNum = r.semNum
      ∧ (0 < sop.semOp ∨ sop.semOp < 0 ∧ b.semval sop.semNum = 0) := by
  have hval := hp.semval r.semNum
  rw [hok.blocked_iff h1] at hr ⊢
  rcases lt_trichotomy (sumOn r.semNum sops) 0 with hneg | hzero | hpos
  · by_cases h0 : b.semval r.semNum = 0
    · obtain ⟨sop, hmem, hnum, hop⟩ := exists_neg_of_sumOn hneg
      exact .inr ⟨sop, hmem, hnum, .inr ⟨hop, by rw [hnum]; exact h0⟩⟩
    · left
      omega
  · left
    rw [hval, hzero, add_zero]
    exact hr
  · obtain ⟨sop, hmem, hnum, hop⟩ := exists_pos_of_sumOn hpos
    exact .inr ⟨sop, hmem, hnum, .inl hop⟩

lemma doSmartUpdate_some (h : Settled a) (hp : Performed a b sops) (otime : Bool) (now : ℕ) :
    ∃ res, doSmartUpdate b (some sops) otime now = some res ∧ Settled res.1 := by
  have hb : SemInv b := h.inv.congr hp.lists (hp.range h.inv.range)
  rw [doSmartUpdate]
  by_cases h0 : b.complexCount = 0
  · rw [if_neg (by simp [h0]), Option.getD_some]
    obtain ⟨res, hres, hs, hblocked⟩ := updateSops_spec sops b [] otime hb h0 fun r hr =>
      hp.dirty (hb.entries r hr) (hb.simple_of_complex h0 hr)
        (h.blocked r (by rw [← hp.lists.pending]; exact hr))
    rw [hres]
    exact ⟨_, rfl, settled_setOtime ⟨hs.inv, hblocked⟩ _ _⟩
  · obtain ⟨u, hu, hs, hblocked⟩ := updateQueue_all hb []
    rw [if_pos (.inl h0), hu]
    exact ⟨_, rfl, settled_setOtime ⟨hs.inv, hblocked⟩ _ _⟩

lemma settled_findAllocUndo (h : Settled sma) (ulp : ℕ) :
    Settled (findAllocUndo sma ulp) ∧ ulp ∈ (findAllocUndo sma ulp).listId
      ∧ (findAllocUndo sma ulp).semPending = sma.semPending := by
  rw [findAllocUndo]
  split_ifs with hmem
  · exact ⟨h, hmem, rfl⟩
  have hinv := h.inv
  refine ⟨⟨⟨hinv.range, hinv.lists, hinv.order, hinv.names, fun q hq => ?_, hinv.complex⟩,
    fun q hq => ?_⟩, mem_cons_self, rfl⟩
  · have hok := hinv.entries q hq
    exact ⟨hok.nonempty, hok.alter, hok.simple, fun un hun => mem_cons_of_mem _ (hok.undo un hun)⟩
  refine (blocked_congr ?_ ?_).mp (h.blocked q hq)
  · exact fun _ _ => rfl
  · intro u hu sop _
    have hne : u ≠ ulp := fun he => hmem (he ▸ (hinv.entries q hq).undo u hu)
    simp only [update_of_ne hne]

lemma enqueue_pending : (enqueue sma q).semPending = listAdd q sma.semPending := by
  rw [enqueue]
  split_ifs <;> rfl

lemma enqueue_listId : (enqueue sma q).listId = sma.listId := by
  rw [enqueue]
  split_ifs <;> rfl

lemma blocked_enqueue : Blocked (enqueue sma q) r ↔ Blocked sma r := by
  refine blocked_congr (fun _ _ => ?_) fun _ _ _ _ => ?_
  · rw [enqueue]
    split_ifs <;> rfl
  · rw [enqueue]
    split_ifs <;> rfl

lemma listAdd_perm (l : List SemQueue) : (listAdd q l).Perm (q :: l) := by
  rw [listAdd]
  split_ifs
  · exact perm_append_singleton q l
  · exact Perm.refl _

lemma filter_listAdd {p : SemQueue → Bool} (l : List SemQueue) :
    (listAdd q l).filter p = if p q = true then listAdd q (l.filter p) else l.filter p := by
  rw [listAdd, listAdd]
  split_ifs with ha hp hp
  · rw [filter_append, filter_cons_of_pos hp, filter_nil]
  · rw [filter_append, filter_cons_of_neg hp, filter_nil, append_nil]
  · rw [filter_cons_of_pos hp]
  · rw [filter_cons_of_neg hp]

lemma SemInv.enqueue (h : SemInv sma) (hq : EntryOk sma.listId q)
    (hfresh : ∀ r ∈ sma.semPending, r.sleeper ≠ q.sleeper) : SemInv (enqueue sma q) := by
  have hpos := hq.nsops_pos
  constructor
  · rw [Ipc.enqueue]
    split_ifs <;> exact h.range
  · intro i
    rw [enqueue_pending, filter_listAdd, ← h.lists, Ipc.enqueue]
    by_cases hon : isOn i q = true
    · obtain ⟨h1, rfl⟩ := isOn_iff.mp hon
      rw [if_pos hon, if_pos h1]
      exact update_self ..
    rw [if_neg hon]
    split_ifs with h1
    · have hne : i ≠ q.semNum := fun hi => hon (isOn_iff.mpr ⟨h1, hi.symm⟩)
      exact update_of_ne hne _ _
    · rfl
  · rw [enqueue_pending, listAdd]
    split_ifs with ha
    · exact pairwise_append.mpr ⟨h.order, pairwise_singleton _ _,
        fun _ _ r hr _ => by rw [mem_singleton.mp hr]; exact ha⟩
    · exact pairwise_cons.mpr ⟨fun _ _ ha' => absurd ha' ha, h.order⟩
  · rw [enqueue_pending, ((listAdd_perm _).map _).nodup_iff, map_cons, nodup_cons]
    refine ⟨fun hmem => ?_, h.names⟩
    obtain ⟨r, hr, hname⟩ := mem_map.mp hmem
    exact hfresh r hr hname
  · rw [enqueue_pending, enqueue_listId]
    intro r hr
    rcases mem_cons.mp ((listAdd_perm _).mem_iff.mp hr) with rfl | hr
    · exact hq
    · exact h.entries r hr
  · rw [enqueue_pending, (listAdd_perm _).countP_eq, countP_cons, Ipc.enqueue]
    have hcomplex := h.complex
    split_ifs with h1 h2 h2
    · simp only [decide_eq_true_iff] at h2
      omega
    · simpa using hcomplex
    · push_cast
      rw [← hcomplex]
    · simp only [decide_eq_true_iff] at h2
      omega

lemma simple_of_sleep {sop : Sembuf} {semval : ℕ → ℤ} (h0 : 0 ≤ semval sop.semNum)
    (h : (trySops adj [] [sop] semval).2 = .sleep) : sop.semOp ≤ 0 ∧ sop.ipcNowait = false := by
  rw [trySops, trySops] at h
  split_ifs at h with hblock hnowait
  exact ⟨by omega, by simpa using hnowait⟩

lemma entryOk_of_sleep (h : SemInv sma)
    (hne : sops ≠ []) (hun : ∀ u, un = some u → u ∈ sma.listId)
    (hsleep : (tryAtomicSemop sma sops un pid).2 = .sleep) :
    EntryOk sma.listId ⟨task, sops, un, pid, sops.any fun sop => sop.semOp ≠ 0⟩ := by
  refine ⟨hne, ?_, fun sop hsop => ?_, hun⟩
  · simp
  · have hsops : sops = [sop] := hsop
    rw [tryAtomicSemop_snd, hsops] at hsleep
    exact simple_of_sleep (h.range _).1 hsleep

lemma settled_semopLocked (h : Settled sma)
    (pid : ℤ) (now : ℕ) (hne : sops ≠ []) (hun : ∀ u, un = some u → u ∈ sma.listId)
    (hfresh : ∀ r ∈ sma.semPending, r.sleeper ≠ task) :
    ∃ res, semopLocked sma task un pid sops now = some res ∧ Settled res.1 := by
  rw [semopLocked]
  cases htry : tryAtomicSemop sma sops un pid with
  | mk b res =>
    have hres : (tryAtomicSemop sma sops un pid).2 = res := by rw [htry]
    have hb : (tryAtomicSemop sma sops un pid).1 = b := by rw [htry]
    cases res with
    | ok =>
      have hp : Performed sma b sops := by
        rw [← hb]
        exact tryAtomicSemop_ok hres
      simp only
      split_ifs with halter
      · obtain ⟨res, hcall, hset⟩ := doSmartUpdate_some h hp true now
        rw [hcall]
        exact ⟨_, rfl, hset⟩
      · have h0 : ∀ sop ∈ sops, sop.semOp = 0 := by simpa using halter
        refine ⟨_, rfl, h.inv.congr hp.lists (hp.range h.inv.range), fun q hq => ?_⟩
        rw [← hp.blocked_of_zero h0]
        exact h.blocked q (by rw [← hp.lists.pending]; exact hq)
    | sleep =>
      have hsame : b = sma := by
        rw [← hb]
        exact tryAtomicSemop_fail (by rw [hres]; decide)
      subst hsame
      refine ⟨_, rfl, h.inv.enqueue (entryOk_of_sleep h.inv hne hun hres) hfresh, fun r hr => ?_⟩
      rw [enqueue_pending] at hr
      rw [blocked_enqueue]
      rcases mem_cons.mp ((listAdd_perm _).mem_iff.mp hr) with rfl | hr
      · exact hres
      · exact h.blocked r hr
    | again | range | inval | fbig =>
      have hsame : b = sma := by
        rw [← hb]
        exact tryAtomicSemop_fail (by rw [hres]; decide)
      subst hsame
      exact ⟨_, rfl, h⟩

lemma settled_semtimedop (h : Settled sma)
    (hfresh : ∀ r ∈ sma.semPending, r.sleeper ≠ task) (ulp : ℕ) (pid : ℤ) (sops : List Sembuf)
    (now : ℕ) :
    ∃ res, semtimedop sma task ulp pid sops now = some res ∧ Settled res.1 := by
  rw [semtimedop]
  by_cases hlen : sops.length < 1
  · rw [if_pos hlen]
    exact ⟨_, rfl, h⟩
  have hne : sops ≠ [] := fun h0 => hlen (by rw [h0]; exact Nat.one_pos)
  rw [if_neg hlen]
  obtain ⟨hundo, hmem, hpending⟩ := settled_findAllocUndo h ulp
  cases sops.any fun sop => sop.semUndo with
  | true =>
    simp only [if_true]
    split_ifs
    · exact ⟨_, rfl, hundo⟩
    · refine settled_semopLocked hundo pid now hne (fun u hsome => ?_)
        (by rw [hpending]; exact hfresh)
      rw [← Option.some.inj hsome]
      exact hmem
  | false =>
    simp only [Bool.false_eq_true, if_false]
    split_ifs
    · exact ⟨_, rfl, h⟩
    · exact settled_semopLocked h pid now hne (fun u hsome => absurd hsome (by simp)) hfresh

lemma settled_setval (h : Settled sma) (semnum : ℕ) (val pid : ℤ) (now : ℕ) :
    ∃ res, semctlSetval sma semnum val pid now = some res ∧ Settled res.1 := by
  rw [semctlSetval]
  split_ifs with hnum hval
  · exact ⟨_, rfl, h⟩
  · exact ⟨_, rfl, h⟩
  have hinv : SemInv (sma.setVal semnum val pid) := by
    refine h.inv.congr ⟨rfl, rfl, rfl, rfl, rfl⟩ fun i => ?_
    simp only [SemArray.setVal, update_apply]
    split_ifs
    · omega
    · exact h.inv.range i
  obtain ⟨res, hcall, hset⟩ := doSmartUpdate_none hinv false now
  rw [hcall]
  exact ⟨_, rfl, hset⟩

lemma settled_setall (h : Settled sma) (semIo : List ℕ) (now : ℕ) :
    ∃ res, semctlSetall sma semIo now = some res ∧ Settled res.1 := by
  rw [semctlSetall]
  split_ifs with hval
  · exact ⟨_, rfl, h⟩
  have hrange : ∀ i : ℕ, ((semIo[i]?).getD 0 : ℤ) ≤ semvmx := by
    intro i
    cases hi : semIo[i]? with
    | none => decide
    | some x =>
      have := mem_of_getElem? hi
      simp only [any_eq_true, decide_eq_true_iff, not_exists, not_and, not_lt] at hval
      exact hval x this
  have hinv : SemInv (sma.setAll semIo) := by
    refine h.inv.congr ⟨rfl, rfl, rfl, rfl, rfl⟩ fun i => ?_
    simp only [SemArray.setAll]
    split_ifs
    · exact ⟨Int.natCast_nonneg _, hrange i⟩
    · exact h.inv.range i
  obtain ⟨res, hcall, hset⟩ := doSmartUpdate_none hinv false now
  rw [hcall]
  exact ⟨_, rfl, hset⟩

lemma undoneVal_range (semval adj : ℤ) :
    0 ≤ undoneVal semval adj ∧ undoneVal semval adj ≤ semvmx := by
  have h0 : (0 : ℤ) ≤ semvmx := by decide
  simp only [undoneVal]
  split_ifs <;> omega

lemma settled_exitSem (h : Settled sma) {ulp : ℕ}
    (hulp : ∀ q ∈ sma.semPending, q.undo ≠ some ulp) (pid : ℤ) (now : ℕ) :
    ∃ res, exitSem sma ulp pid now = some res ∧ Settled res.1 := by
  have hinv := h.inv
  rw [exitSem]
  split_ifs with hmem
  · have hundone : SemInv (sma.performUndo ulp pid) := by
      refine ⟨fun i => ?_, hinv.lists, hinv.order, hinv.names, fun q hq => ?_, hinv.complex⟩
      · simp only [SemArray.performUndo]
        split_ifs
        · exact undoneVal_range _ _
        · exact hinv.range i
      · have hok := hinv.entries q hq
        refine ⟨hok.nonempty, hok.alter, hok.simple, fun un hun => mem_filter.mpr
          ⟨hok.undo un hun, decide_eq_true fun he => ?_⟩⟩
        rw [he] at hun
        exact hulp q hq hun
    exact doSmartUpdate_none hundone true now
  · exact ⟨_, rfl, h⟩

lemma settled_giveUp (h : Settled sma) (task : ℕ) : Settled (giveUp sma task) := by
  rw [giveUp]
  split
  · exact h
  rename_i q hq
  have hmem := List.mem_of_find?_eq_some hq
  refine ⟨h.inv.unlinkQueue hmem, fun r hr => ?_⟩
  rw [unlinkQueue_pending] at hr
  exact blocked_unlinkQueue.mpr (h.blocked r (mem_listDel.mp hr).1)

inductive SemCall where
  | semop (task ulp : ℕ) (pid : ℤ) (sops : List Sembuf) (now : ℕ)
  | setval (semnum : ℕ) (val pid : ℤ) (now : ℕ)
  | setall (semIo : List ℕ) (now : ℕ)
  | exit (ulp : ℕ) (pid : ℤ) (now : ℕ)
  | giveUp (task : ℕ)

def SemCall.exec (sma : SemArray) : SemCall → Option SemArray
  | semop task ulp pid sops now => (semtimedop sma task ulp pid sops now).map Prod.fst
  | setval semnum val pid now => (semctlSetval sma semnum val pid now).map Prod.fst
  | setall semIo now => (semctlSetall sma semIo now).map Prod.fst
  | exit ulp pid now => (exitSem sma ulp pid now).map Prod.fst
  | giveUp task => some (Ipc.giveUp sma task)

/-- A task that sleeps makes no call, and the undo list of a task that sleeps is still in use. -/
def SemCall.Lawful (sma : SemArray) : SemCall → Prop
  | semop task _ _ _ _ => ∀ q ∈ sma.semPending, q.sleeper ≠ task
  | exit ulp _ _ => ∀ q ∈ sma.semPending, q.undo ≠ some ulp
  | setval _ _ _ _ | setall _ _ | giveUp _ => True

inductive SemReach : SemArray → Prop where
  | new (nsems : ℕ) : SemReach (newary nsems)
  | call {sma sma' : SemArray} {c : SemCall} : SemReach sma → c.Lawful sma →
      c.exec sma = some sma' → SemReach sma'

lemma settled_newary (nsems : ℕ) : Settled (newary nsems) := by
  have h0 : (0 : ℤ) ≤ semvmx := by decide
  refine ⟨⟨fun i => ⟨le_rfl, h0⟩, fun i => rfl, List.Pairwise.nil, nodup_nil, ?_, rfl⟩, ?_⟩
  · exact forall_mem_nil _
  · exact forall_mem_nil _

lemma Settled.call (h : Settled sma) {c : SemCall} (hc : c.Lawful sma) :
    ∃ sma', c.exec sma = some sma' ∧ Settled sma' := by
  cases c with
  | semop task ulp pid sops now =>
    obtain ⟨res, hcall, hset⟩ := settled_semtimedop h hc ulp pid sops now
    exact ⟨_, by rw [SemCall.exec, hcall]; rfl, hset⟩
  | setval semnum val pid now =>
    obtain ⟨res, hcall, hset⟩ := settled_setval h semnum val pid now
    exact ⟨_, by rw [SemCall.exec, hcall]; rfl, hset⟩
  | setall semIo now =>
    obtain ⟨res, hcall, hset⟩ := settled_setall h semIo now
    exact ⟨_, by rw [SemCall.exec, hcall]; rfl, hset⟩
  | exit ulp pid now =>
    obtain ⟨res, hcall, hset⟩ := settled_exitSem h hc pid now
    exact ⟨_, by rw [SemCall.exec, hcall]; rfl, hset⟩
  | giveUp task => exact ⟨_, rfl, settled_giveUp h task⟩

lemma SemReach.settled (h : SemReach sma) : Settled sma := by
  induction h with
  | new nsems => exact settled_newary nsems
  | call _ hlaw hexec ih =>
    obtain ⟨sma', hcall, hset⟩ := ih.call hlaw
    rw [← Option.some.inj (hcall.symm.trans hexec)]
    exact hset

/-- In every array reached, each entry on the queue still has to wait, the values are in range, and
`complex_count` counts the entries with more than one operation. The next call ends, without running
into a `BUG_ON`. -/
theorem sem_no_lost_wakeup (h : SemReach sma) :
    (∀ q ∈ sma.semPending, (tryAtomicSemop sma q.sops q.undo q.pid).2 = .sleep)
      ∧ (∀ i, 0 ≤ sma.semval i ∧ sma.semval i ≤ semvmx)
      ∧ sma.complexCount = (sma.semPending.filter fun q => 1 < q.nsops).length
      ∧ ∀ c : SemCall, c.Lawful sma → (c.exec sma).isSome = true := by
  have hset := h.settled
  refine ⟨hset.blocked, hset.inv.range, ?_, fun c hc => ?_⟩
  · rw [hset.inv.complex, countP_eq_length_filter]
  · obtain ⟨sma', hcall, -⟩ := hset.call hc
    rw [hcall]
    rfl

lemma SemReach.next (h : SemReach sma) {c : SemCall} (hc : c.Lawful sma)
    (hs : (c.exec sma).isSome = true) : SemReach ((c.exec sma).get hs) :=
  h.call hc (Option.some_get hs).symm

theorem sem_no_lost_wakeup_three :
    ∃ sma, SemReach sma ∧ sma.semPending = [⟨1, [⟨0, -2, false, false⟩], none, 1, true⟩]
      ∧ sma.semval 0 = 0 ∧ (tryAtomicSemop sma [⟨0, -2, false, false⟩] none 1).2 = .sleep := by
  have h1 := (SemReach.new 2).next (c := .setval 0 1 9 0) trivial (by decide +kernel)
  have h2 := h1.next (c := .semop 1 1 1 [⟨0, -2, false, false⟩] 0)
    (show ∀ q ∈ _, _ by decide +kernel) (by decide +kernel)
  have h3 := h2.next (c := .semop 2 2 2 [⟨0, 0, false, false⟩] 0)
    (show ∀ q ∈ _, _ by decide +kernel) (by decide +kernel)
  have h4 := h3.next (c := .semop 3 3 3 [⟨0, -1, false, true⟩] 0)
    (show ∀ q ∈ _, _ by decide +kernel) (by decide +kernel)
  exact ⟨_, h4, by decide +kernel, by decide +kernel,
    (sem_no_lost_wakeup h4).1 ⟨1, [⟨0, -2, false, false⟩], none, 1, true⟩ (by decide +kernel)⟩

end LinuxKernel.Ipc
