import LinuxKernel.Proofs.Sem

/-!
# Semaphore adjustments

`try_atomic_semop` tests each operation with `SEM_UNDO` against the adjustment from before the call,
and takes all of them from it afterwards. Two of them for one semaphore can take the adjustment, a
`short`, round the end of its range.
-/

namespace LinuxKernel.Ipc

open List

/-- The run of a process with the undo structure `un`, and the calls it has performed. Between its
calls other processes may do anything but change its adjustments. -/
inductive UndoRun (un : ℕ) : SemArray → List (List Sembuf) → Prop
  | start {sma : SemArray} : (∀ i, sma.semadj un i = 0) → UndoRun un sma []
  | call {sma : SemArray} {calls : List (List Sembuf)} (sops : List Sembuf) (pid : ℤ) :
    UndoRun un sma calls → UndoRun un (tryAtomicSemop sma sops (some un) pid).1
        (if (tryAtomicSemop sma sops (some un) pid).2 = .ok then sops :: calls else calls)
  | other {sma sma' : SemArray} {calls : List (List Sembuf)} :
    UndoRun un sma calls → (∀ i, sma'.semadj un i = sma.semadj un i) → UndoRun un sma' calls

def undoSum (i : ℕ) (calls : List (List Sembuf)) : ℤ :=
  (calls.map fun sops => sumOn i (sops.filter Sembuf.semUndo)).sum

def OneUndo (sops : List Sembuf) : Prop :=
  ((sops.filter Sembuf.semUndo).map Sembuf.semNum).Nodup

lemma sumOn_of_notMem {i : ℕ} {sops : List Sembuf} (h : i ∉ sops.map Sembuf.semNum) :
    sumOn i sops = 0 := by
  rw [sumOn, filter_eq_nil_iff.mpr]
  · rfl
  · intro sop hsop heq
    exact h (mem_map.mpr ⟨sop, hsop, of_decide_eq_true heq⟩)

lemma sumOn_of_nodup {i : ℕ} : ∀ {sops : List Sembuf}, (sops.map Sembuf.semNum).Nodup →
    sumOn i sops = 0 ∨ ∃ sop ∈ sops, sop.semNum = i ∧ sumOn i sops = sop.semOp
  | [], _ => Or.inl rfl
  | sop :: sops, h => by
    rw [map_cons, nodup_cons] at h
    rw [sumOn_cons]
    by_cases hi : sop.semNum = i
    · refine .inr ⟨sop, mem_cons_self, hi, ?_⟩
      rw [if_pos hi, sumOn_of_notMem (hi ▸ h.1), add_zero]
    · rw [if_neg hi, zero_add]
      refine (sumOn_of_nodup h.2).imp_right ?_
      rintro ⟨s, hs, hrest⟩
      exact ⟨s, mem_cons_of_mem _ hs, hrest⟩

lemma trySops_undo {adj : ℕ → ℤ} : ∀ (prev sops : List Sembuf) (semval : ℕ → ℤ),
    (trySops adj prev sops semval).2 = .ok → ∀ sop ∈ sops, sop.semUndo = true →
      -semaem - 1 ≤ adj sop.semNum - sop.semOp ∧ adj sop.semNum - sop.semOp ≤ semaem
  | _, [], _, _, _, hmem, _ => by cases hmem
  | prev, first :: sops, semval, h, sop, hmem, hundo => by
    rw [trySops] at h
    split_ifs at h with hblock hnowait hmax hadj
    rcases mem_cons.mp hmem with rfl | hmem
    · rw [not_and, not_or, not_lt, not_lt] at hadj
      exact hadj hundo
    · exact trySops_undo _ sops _ h sop hmem hundo

lemma toInt_sub_ofInt {x : BitVec 16} {d : ℤ} (h : -semaem - 1 ≤ x.toInt - d)
    (h' : x.toInt - d ≤ semaem) : (x - BitVec.ofInt 16 d).toInt = x.toInt - d := by
  simp only [semaem, semvmx] at h h'
  rw [BitVec.toInt_sub, BitVec.toInt_ofInt, Int.sub_bmod_bmod, Int.bmod_eq_of_le] <;> omega

lemma toInt_range (x : BitVec 16) : -semaem - 1 ≤ x.toInt ∧ x.toInt ≤ semaem := by
  have hlo := BitVec.le_toInt x
  have hhi := BitVec.toInt_lt (x := x)
  simp only [semaem, semvmx]
  omega

variable {sma : SemArray} {sops : List Sembuf} {un : ℕ} {pid : ℤ}

lemma semadj_call (h : (tryAtomicSemop sma sops (some un) pid).2 = .ok) (hone : OneUndo sops)
    (i : ℕ) : ((tryAtomicSemop sma sops (some un) pid).1.semadj un i).toInt
      = (sma.semadj un i).toInt - sumOn i (sops.filter Sembuf.semUndo) := by
  rw [tryAtomicSemop_semadj h, if_pos rfl]
  refine (sumOn_of_nodup (i := i) hone).elim (fun hsum => ?_) ?_
  · obtain ⟨hlo, hhi⟩ := toInt_range (sma.semadj un i)
    exact toInt_sub_ofInt (by omega) (by omega)
  rintro ⟨sop, hsop, rfl, hsum⟩
  obtain ⟨hmem, hundo⟩ := mem_filter.mp hsop
  rw [tryAtomicSemop_snd] at h
  obtain ⟨hlo, hhi⟩ := trySops_undo _ _ _ h sop hmem hundo
  rw [hsum]
  exact toInt_sub_ofInt hlo hhi

lemma undoSum_cons (i : ℕ) (sops : List Sembuf) (calls : List (List Sembuf)) :
    undoSum i (sops :: calls) = sumOn i (sops.filter Sembuf.semUndo) + undoSum i calls := by
  simp [undoSum]

lemma UndoRun.semadj_eq {calls : List (List Sembuf)} (h : UndoRun un sma calls)
    (hone : ∀ sops ∈ calls, OneUndo sops) (i : ℕ) :
    (sma.semadj un i).toInt = -undoSum i calls := by
  induction h with
  | start h0 =>
    rw [h0 i]
    rfl
  | @call sma calls sops pid _ ih =>
    split_ifs at hone ⊢ with hok
    · rw [semadj_call hok (hone sops mem_cons_self),
        ih fun s hs => hone s (mem_cons_of_mem _ hs), undoSum_cons]
      omega
    · rw [tryAtomicSemop_fail hok]
      exact ih hone
  | other _ hsame ih =>
    rw [hsame i]
    exact ih hone

lemma undoneVal_eq (semval adj : ℤ) : undoneVal semval adj = max 0 (min semvmx (semval + adj)) := by
  simp only [undoneVal, semvmx]
  split_ifs <;> omega

def upUndo : Sembuf := ⟨0, 20000, false, true⟩

end LinuxKernel.Ipc
