import Mathlib.Algebra.Order.Ring.Int
import Mathlib.Data.BitVec
import Mathlib.Logic.Function.Basic

/-!
# System V semaphores

A semaphore array of `ipc/sem.c` and the calls that change it: `semtimedop`, `semctl` with `SETVAL`
and `SETALL`, `exit_sem`, and a sleeper that gives up. Each runs with the array locked. A task that
sleeps is one queue entry, so the task names the entry; it is on the list of the array and, if it
waits for a single operation, also on the list of that semaphore. A `BUG_ON` that fires is `none`.
Permissions, the limits of the namespace and the change time of the array are left out.
-/

namespace LinuxKernel.Ipc

def semvmx : ℤ := 32767

def semaem : ℤ := semvmx

/-- `struct sembuf`, with the flags `IPC_NOWAIT` and `SEM_UNDO`. -/
structure Sembuf where
  semNum : ℕ
  semOp : ℤ
  ipcNowait : Bool
  semUndo : Bool
  deriving DecidableEq, Repr

/-- What a call returns: 0, 1 (sleep), or an error. -/
inductive SemResult where
  | ok | sleep | again | range | inval | fbig
  deriving DecidableEq, Repr

structure SemQueue where
  sleeper : ℕ
  sops : List Sembuf
  undo : Option ℕ
  pid : ℤ
  alter : Bool
  deriving DecidableEq, Repr

def SemQueue.nsops (q : SemQueue) : ℕ := q.sops.length

/-- `struct sem_array`. `simple i` is the list `sem_pending` of semaphore `i`, `semPending` that of the
array; `semadj un` are the adjustments of the undo structure `un`, each a `short`. -/
structure SemArray where
  semNsems : ℕ
  semval : ℕ → ℤ
  sempid : ℕ → ℤ
  simple : ℕ → List SemQueue
  semPending : List SemQueue
  complexCount : ℤ
  listId : List ℕ
  semadj : ℕ → ℕ → BitVec 16
  semOtime : ℕ

/-- The array that `newary` sets up. -/
def newary (nsems : ℕ) : SemArray :=
  ⟨nsems, fun _ => 0, fun _ => 0, fun _ => [], [], 0, [], fun _ _ => 0, 0⟩

/-- The adjustments of an operation's undo structure. -/
def SemArray.adjOf (sma : SemArray) (un : Option ℕ) : ℕ → ℤ :=
  match un with
  | none => fun _ => 0
  | some un => fun i => (sma.semadj un i).toInt

/-- The loop that takes back the operations done, the last one first. -/
def undoSops : List Sembuf → (ℕ → ℤ) → ℕ → ℤ
  | [], semval => semval
  | sop :: prev, semval =>
    undoSops prev (Function.update semval sop.semNum (semval sop.semNum - sop.semOp))

/-- The first loop of `try_atomic_semop`, with the operations done so far. -/
def trySops (semadj : ℕ → ℤ) : List Sembuf → List Sembuf → (ℕ → ℤ) → (ℕ → ℤ) × SemResult
  | _, [], semval => (semval, .ok)
  | prev, sop :: sops, semval =>
    let result := semval sop.semNum + sop.semOp
    if sop.semOp = 0 ∧ semval sop.semNum ≠ 0 ∨ result < 0 then
      (undoSops prev semval, if sop.ipcNowait then .again else .sleep)
    else if semvmx < result then (undoSops prev semval, .range)
    else if sop.semUndo = true ∧ (semadj sop.semNum - sop.semOp < -semaem - 1 ∨
        semaem < semadj sop.semNum - sop.semOp) then (undoSops prev semval, .range)
    else trySops semadj (sop :: prev) sops (Function.update semval sop.semNum result)

/-- `un->semadj[sop->sem_num] -= sop->sem_op`. -/
def adjust (un : Option ℕ) (sop : Sembuf) (sma : SemArray) : SemArray :=
  match un with
  | none => sma
  | some un =>
    let adj := sma.semadj un sop.semNum - BitVec.ofInt 16 sop.semOp
    { sma with
      semadj := Function.update sma.semadj un (Function.update (sma.semadj un) sop.semNum adj) }

/-- The loop of `try_atomic_semop` over the operations, the last one first, once all of them have
succeeded. -/
def commitSops (un : Option ℕ) (pid : ℤ) : List Sembuf → SemArray → SemArray
  | [], sma => sma
  | sop :: prev, sma =>
    let sma := { sma with sempid := Function.update sma.sempid sop.semNum pid }
    commitSops un pid prev (if sop.semUndo then adjust un sop sma else sma)

def tryAtomicSemop (sma : SemArray) (sops : List Sembuf) (un : Option ℕ) (pid : ℤ) :
    SemArray × SemResult :=
  match trySops (sma.adjOf un) [] sops sma.semval with
  | (semval, .ok) => (commitSops un pid sops.reverse { sma with semval := semval }, .ok)
  | (semval, result) => ({ sma with semval := semval }, result)

def listDel (q : SemQueue) (l : List SemQueue) : List SemQueue :=
  l.filter fun r => r.sleeper ≠ q.sleeper

def SemQueue.semNum (q : SemQueue) : ℕ := (q.sops.head?.map Sembuf.semNum).getD 0

def SemQueue.semOp (q : SemQueue) : ℤ := (q.sops.head?.map Sembuf.semOp).getD 0

def unlinkQueue (sma : SemArray) (q : SemQueue) : SemArray :=
  let sma := { sma with semPending := listDel q sma.semPending }
  if q.nsops = 1 then
    { sma with
      simple := Function.update sma.simple q.semNum (listDel q (sma.simple q.semNum)) }
  else { sma with complexCount := sma.complexCount - 1 }

def checkRestart (sma : SemArray) (q : SemQueue) : Option Bool :=
  if q.alter = false then some false
  else if sma.complexCount ≠ 0 then some true
  else if 1 < q.nsops then some true
  else
    match sma.simple q.semNum with
    | [] => some false
    | h :: _ =>
      if sma.semval q.semNum ≠ 0 then
        if 0 ≤ q.semOp then none else some false
      else if h.nsops ≠ 1 then none
      else if h.semNum ≠ q.semNum then none
      else if h.semOp = 0 then some true
      else some false

/-- The tasks to be woken, with what their calls return. -/
abbrev Tasks := List (SemQueue × SemResult)

def atZero (sma : SemArray) : Option ℕ → Bool
  | none => false
  | some semnum => decide (sma.semval semnum = 0)

/-- The state of `update_queue`: the array, the tasks to be woken, `semop_completed`. -/
structure Update where
  sma : SemArray
  pt : Tasks
  completed : Bool

/-- The loop of `update_queue` over the entries that are left, and whether it ends in `goto again`. -/
def walkQueue (semnum : Option ℕ) : List SemQueue → Update → Option (Update × Bool)
  | [], u => some (u, false)
  | q :: walk, u =>
    if atZero u.sma semnum && q.alter then some (u, false)
    else
      match tryAtomicSemop u.sma q.sops q.undo q.pid with
      | (sma, .sleep) => walkQueue semnum walk ⟨sma, u.pt, u.completed⟩
      | (sma, .ok) =>
        match checkRestart (unlinkQueue sma q) q with
        | none => none
        | some true => some (⟨unlinkQueue sma q, u.pt ++ [(q, .ok)], true⟩, true)
        | some false => walkQueue semnum walk ⟨unlinkQueue sma q, u.pt ++ [(q, .ok)], true⟩
      | (sma, error) =>
        walkQueue semnum walk ⟨unlinkQueue sma q, u.pt ++ [(q, error)], u.completed⟩

def pendingList (sma : SemArray) : Option ℕ → List SemQueue
  | none => sma.semPending
  | some semnum => sma.simple semnum

/-- `update_queue` from the label `again` on, with at most `n` scans: `none` if they are not
enough. -/
def scanQueue (semnum : Option ℕ) : ℕ → Update → Option Update
  | 0, _ => none
  | n + 1, u =>
    match walkQueue semnum (pendingList u.sma semnum) u with
    | none => none
    | some (u, true) => scanQueue semnum n u
    | some (u, false) => some u

/-- `semnum` is `none` for -1. Each scan after the first has one entry less. -/
def updateQueue (sma : SemArray) (semnum : Option ℕ) (pt : Tasks) : Option Update :=
  scanQueue (if sma.complexCount ≠ 0 then none else semnum) (sma.semPending.length + 1)
    ⟨sma, pt, false⟩

/-- The loop of `do_smart_update` over the operations. -/
def updateSops : List Sembuf → SemArray → Tasks → Bool → Option (SemArray × Tasks × Bool)
  | [], sma, pt, otime => some (sma, pt, otime)
  | sop :: sops, sma, pt, otime =>
    if 0 < sop.semOp ∨ (sop.semOp < 0 ∧ sma.semval sop.semNum = 0) then
      match updateQueue sma (some sop.semNum) pt with
      | none => none
      | some u => updateSops sops u.sma u.pt (otime || u.completed)
    else updateSops sops sma pt otime

/-- `if (otime) sma->sem_otime = get_seconds()`. -/
def setOtime (sma : SemArray) (otime : Bool) (now : ℕ) : SemArray :=
  if otime then { sma with semOtime := now } else sma

/-- `sops` is `none` for `NULL`; `now` is `get_seconds()`. -/
def doSmartUpdate (sma : SemArray) (sops : Option (List Sembuf)) (otime : Bool) (now : ℕ) :
    Option (SemArray × Tasks) :=
  if sma.complexCount ≠ 0 ∨ sops = none then
    (updateQueue sma none []).map fun u => (setOtime u.sma (otime || u.completed) now, u.pt)
  else
    (updateSops (sops.getD []) sma [] otime).map fun r => (setOtime r.1 r.2.2 now, r.2.1)

/-- The undo structure of the undo list `ulp` for this array, allocated if there is none. -/
def findAllocUndo (sma : SemArray) (ulp : ℕ) : SemArray :=
  if ulp ∈ sma.listId then sma
  else
    { sma with
      listId := ulp :: sma.listId
      semadj := Function.update sma.semadj ulp fun _ => 0 }

def listAdd (q : SemQueue) (l : List SemQueue) : List SemQueue :=
  if q.alter then l ++ [q] else q :: l

def enqueue (sma : SemArray) (q : SemQueue) : SemArray :=
  let sma := { sma with semPending := listAdd q sma.semPending }
  if q.nsops = 1 then
    { sma with simple := Function.update sma.simple q.semNum (listAdd q (sma.simple q.semNum)) }
  else { sma with complexCount := sma.complexCount + 1 }

/-- `semtimedop` from `try_atomic_semop` up to the point where the task sleeps or the call returns. -/
def semopLocked (sma : SemArray) (task : ℕ) (un : Option ℕ) (pid : ℤ) (sops : List Sembuf) (now : ℕ) :
    Option (SemArray × Tasks × SemResult) :=
  let alter := sops.any fun sop => sop.semOp ≠ 0
  match tryAtomicSemop sma sops un pid with
  | (sma, .ok) =>
    if alter then (doSmartUpdate sma (some sops) true now).map fun r => (r.1, r.2, .ok)
    else some (sma, [], .ok)
  | (sma, .sleep) => some (enqueue sma ⟨task, sops, un, pid, alter⟩, [], .sleep)
  | (sma, error) => some (sma, [], error)

/-- The call of a task with the undo list `ulp`. -/
def semtimedop (sma : SemArray) (task ulp : ℕ) (pid : ℤ) (sops : List Sembuf) (now : ℕ) :
    Option (SemArray × Tasks × SemResult) :=
  if sops.length < 1 then some (sma, [], .inval)
  else
    let undos := sops.any fun sop => sop.semUndo
    let sma := if undos then findAllocUndo sma ulp else sma
    let un := if undos then some ulp else none
    if sops.any fun sop => decide (sma.semNsems ≤ sop.semNum) then some (sma, [], .fbig)
    else semopLocked sma task un pid sops now

/-- A semaphore is set, and its adjustments are cleared. -/
def SemArray.setVal (sma : SemArray) (semnum : ℕ) (val pid : ℤ) : SemArray :=
  { sma with
    semadj := fun un =>
      if un ∈ sma.listId then Function.update (sma.semadj un) semnum 0 else sma.semadj un
    semval := Function.update sma.semval semnum val
    sempid := Function.update sma.sempid semnum pid }

def semctlSetval (sma : SemArray) (semnum : ℕ) (val pid : ℤ) (now : ℕ) :
    Option (SemArray × Tasks × SemResult) :=
  if sma.semNsems ≤ semnum then some (sma, [], .inval)
  else if semvmx < val ∨ val < 0 then some (sma, [], .range)
  else (doSmartUpdate (sma.setVal semnum val pid) none false now).map fun r => (r.1, r.2, .ok)

def SemArray.setAll (sma : SemArray) (semIo : List ℕ) : SemArray :=
  { sma with
    semval := fun i => if i < sma.semNsems then ((semIo[i]?).getD 0 : ℤ) else sma.semval i
    semadj := fun un i => if un ∈ sma.listId ∧ i < sma.semNsems then 0 else sma.semadj un i }

/-- `semctl` with `SETALL`; the values are those of a `ushort`. -/
def semctlSetall (sma : SemArray) (semIo : List ℕ) (now : ℕ) :
    Option (SemArray × Tasks × SemResult) :=
  if semIo.any fun x => decide (semvmx < x) then some (sma, [], .range)
  else (doSmartUpdate (sma.setAll semIo) none false now).map fun r => (r.1, r.2, .ok)

/-- The new value of a semaphore when `adj` is undone. -/
def undoneVal (semval adj : ℤ) : ℤ :=
  let semval := if semval + adj < 0 then 0 else semval + adj
  if semvmx < semval then semvmx else semval

/-- "perform adjustments registered in un". -/
def SemArray.performUndo (sma : SemArray) (ulp : ℕ) (pid : ℤ) : SemArray :=
  let adj := sma.semadj ulp
  { sma with
    listId := sma.listId.filter fun un => un ≠ ulp
    semval := fun i =>
      if i < sma.semNsems ∧ adj i ≠ 0 then undoneVal (sma.semval i) (adj i).toInt
      else sma.semval i
    sempid := fun i => if i < sma.semNsems ∧ adj i ≠ 0 then pid else sma.sempid i }

/-- `exit_sem` for the undo structure that the undo list `ulp` has for this array. -/
def exitSem (sma : SemArray) (ulp : ℕ) (pid : ℤ) (now : ℕ) : Option (SemArray × Tasks) :=
  if ulp ∈ sma.listId then doSmartUpdate (sma.performUndo ulp pid) none true now
  else some (sma, [])

/-- The end of `semtimedop` for a task that was not woken by another one: it has timed out, or was
interrupted. -/
def giveUp (sma : SemArray) (task : ℕ) : SemArray :=
  match sma.semPending.find? fun q => q.sleeper = task with
  | none => sma
  | some q => unlinkQueue sma q

end LinuxKernel.Ipc
