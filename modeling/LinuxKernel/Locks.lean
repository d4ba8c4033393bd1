import Mathlib.Algebra.Order.Ring.Int
import Mathlib.Logic.Function.Basic

/-!
# POSIX file locks

`__posix_lock_file` of `fs/locks.c` with the deadlock check and the lists of waiters. A lock is named
by its address. The list of an inode is a list of addresses, and what a waiting request has in
`fl_next`, the lock it waits for, is kept apart from it. All locks are POSIX locks of owners that are
compared by `fl_owner`; the process that a lock belongs to, the list of all locks, the copy of a
conflicting lock for the caller and the hooks of a lock manager are left out. A `BUG_ON` that fires is
`none`.
-/

namespace LinuxKernel.Fs

inductive LockType where
  | rdlck | wrlck | unlck
  deriving DecidableEq, Repr

def offsetMax : ℤ := 2 ^ 63 - 1

/-- `struct file_lock`, with `fl_end` as `stop` and the flags `FL_SLEEP`, `FL_ACCESS`, `FL_EXISTS`. -/
structure FileLock (O : Type*) where
  owner : O
  type : LockType
  start : ℤ
  stop : ℤ
  flSleep : Bool
  flAccess : Bool
  flExists : Bool

/-- The locks in memory, the list `i_flock` of each inode, the lock each request waits for, the list
`fl_block` of the requests that wait for a lock, and `blocked_list`. -/
structure LockState (I O : Type*) where
  lock : ℕ → FileLock O
  flock : I → List ℕ
  next : ℕ → Option ℕ
  block : ℕ → List ℕ
  blockedList : List ℕ

/-- What `__posix_lock_file` returns. -/
inductive LockResult where
  | ok | again | deadlk | deferred | nolck | noent
  deriving DecidableEq, Repr

variable {I O : Type*}

def locksOverlap (fl1 fl2 : FileLock O) : Bool :=
  decide (fl2.start ≤ fl1.stop) && decide (fl1.start ≤ fl2.stop)

def locksConflict (callerFl sysFl : FileLock O) : Bool :=
  decide (sysFl.type = .wrlck) || decide (callerFl.type = .wrlck)

def setStart (m : ℕ → FileLock O) (fl : ℕ) (x : ℤ) : ℕ → FileLock O :=
  Function.update m fl { m fl with start := x }

def setStop (m : ℕ → FileLock O) (fl : ℕ) (x : ℤ) : ℕ → FileLock O :=
  Function.update m fl { m fl with stop := x }

def widenStart (m : ℕ → FileLock O) (fl request : ℕ) : ℕ → FileLock O :=
  if (m request).start < (m fl).start then setStart m fl (m request).start
  else setStart m request (m fl).start

def widenStop (m : ℕ → FileLock O) (fl request : ℕ) : ℕ → FileLock O :=
  if (m fl).stop < (m request).stop then setStop m fl (m request).stop
  else setStop m request (m fl).stop

/-- "Make one lock yielding from the lower start address of both locks to the higher end address." -/
def widen (m : ℕ → FileLock O) (fl request : ℕ) : ℕ → FileLock O :=
  widenStop (widenStart m fl request) fl request

def locksDeleteBlock (s : LockState I O) (waiter : ℕ) : LockState I O :=
  { s with
    block := fun fl => (s.block fl).filter (· ≠ waiter)
    blockedList := s.blockedList.filter (· ≠ waiter)
    next := Function.update s.next waiter none }

/-- The request must not be on a list of waiters, nor have one. -/
def locksInsertBlock (s : LockState I O) (blocker waiter : ℕ) : Option (LockState I O) :=
  if s.block waiter ≠ [] ∨ s.next waiter ≠ none then none
  else
    some
      { s with
        block := Function.update s.block blocker (s.block blocker ++ [waiter])
        next := Function.update s.next waiter (some blocker)
        blockedList := waiter :: s.blockedList }

/-- The first waiter is taken off the list until there is none. -/
def locksWakeUpBlocks (s : LockState I O) (blocker : ℕ) : LockState I O :=
  (s.block blocker).foldl locksDeleteBlock s

def posixUnblockLock (s : LockState I O) (waiter : ℕ) : LockState I O × LockResult :=
  if s.next waiter ≠ none then (locksDeleteBlock s waiter, .ok) else (s, .noent)

section

variable [DecidableEq O]

def posixSameOwner (fl1 fl2 : FileLock O) : Bool := decide (fl1.owner = fl2.owner)

def posixLocksConflict (callerFl sysFl : FileLock O) : Bool :=
  !posixSameOwner callerFl sysFl && locksOverlap callerFl sysFl && locksConflict callerFl sysFl

def maxDeadlkIterations : ℕ := 10

def whatOwnerIsWaitingFor (s : LockState I O) (blockFl : ℕ) : Option ℕ :=
  (s.blockedList.find? fun fl => posixSameOwner (s.lock fl) (s.lock blockFl)).bind s.next

/-- The loop of `posix_locks_deadlock`, with `MAX_DEADLK_ITERATIONS + 1 - i` for `i`. -/
def deadlockLoop (s : LockState I O) (callerFl : ℕ) : ℕ → ℕ → Bool
  | n, blockFl =>
    match whatOwnerIsWaitingFor s blockFl with
    | none => false
    | some blockFl =>
      match n with
      | 0 => false
      | n + 1 =>
        if posixSameOwner (s.lock callerFl) (s.lock blockFl) then true
        else deadlockLoop s callerFl n blockFl

def posixLocksDeadlock (s : LockState I O) (callerFl blockFl : ℕ) : Bool :=
  deadlockLoop s callerFl (maxDeadlkIterations + 1) blockFl

/-- The local variables of `__posix_lock_file`. -/
structure Walk (I O : Type*) where
  st : LockState I O
  request : ℕ
  left : Option ℕ
  right : Option ℕ
  added : Bool

/-- `locks_delete_lock`, but for the list that the lock is taken off. -/
def Walk.delete (w : Walk I O) (fl : ℕ) : Walk I O := { w with st := locksWakeUpBlocks w.st fl }

/-- The lock found becomes the request. -/
def Walk.adopt (w : Walk I O) (m : ℕ → FileLock O) (fl : ℕ) : Walk I O :=
  { w with st := { w.st with lock := m }, request := fl, added := true }

/-- "Replace the old lock with the new one." -/
def Walk.replace (w : Walk I O) (fl : ℕ) : Walk I O :=
  let m := w.st.lock
  let lock := { m fl with
    start := (m w.request).start, stop := (m w.request).stop, type := (m w.request).type }
  Walk.adopt (w.delete fl) (Function.update m fl lock) fl

/-- The variables after the tests for `left` and for an unlock. -/
def Walk.note (w : Walk I O) (fl : ℕ) : Walk I O :=
  let m := w.st.lock
  { w with
    added := w.added || decide ((m w.request).type = .unlck)
    left := if (m fl).start < (m w.request).start then some fl else w.left }

/-- "Process locks with this owner": the loop, with the list split at `before`. -/
def processLocks : List ℕ → List ℕ → Walk I O → Walk I O × List ℕ × List ℕ
  | prev, [], w => (w, prev, [])
  | prev, fl :: rest, w =>
    let m := w.st.lock
    if posixSameOwner (m w.request) (m fl) = false then (w, prev, fl :: rest)
    else if (m w.request).type = (m fl).type then
      if (m fl).stop < (m w.request).start - 1 then processLocks (prev ++ [fl]) rest w
      else if (m w.request).stop < (m fl).start - 1 then (w, prev, fl :: rest)
      else
        let m := widen m fl w.request
        if w.added then
          processLocks prev rest ({ w with st := { w.st with lock := m } }.delete fl)
        else processLocks (prev ++ [fl]) rest (w.adopt m fl)
    else if (m fl).stop < (m w.request).start then processLocks (prev ++ [fl]) rest w
    else if (m w.request).stop < (m fl).start then (w, prev, fl :: rest)
    else if (m w.request).stop < (m fl).stop then
      ({ w.note fl with right := some fl }, prev, fl :: rest)
    else if (m w.request).start ≤ (m fl).start then
      if (w.note fl).added then processLocks prev rest ((w.note fl).delete fl)
      else processLocks (prev ++ [fl]) rest ((w.note fl).replace fl)
    else processLocks (prev ++ [fl]) rest (w.note fl)

variable [DecidableEq I]

def LockState.setFlock (s : LockState I O) (inode : I) (l : List ℕ) : LockState I O :=
  { s with flock := Function.update s.flock inode l }

/-- Trimming the lock on the right, after a copy of it was put before it if it is also the one on the
left. The result has the lock on the left. -/
def trimRight (w : Walk I O) (newFl2 : Option ℕ) (prev rest : List ℕ) :
    Walk I O × List ℕ :=
  match w.right with
  | none => (w, prev ++ rest)
  | some right =>
    let m := w.st.lock
    let (m, left, list) :=
      match newFl2 with
      | some new =>
        if w.left = some right then (Function.update m new (m right), some new, prev ++ new :: rest)
        else (m, w.left, prev ++ rest)
      | none => (m, w.left, prev ++ rest)
    let m := setStart m right ((m w.request).stop + 1)
    ({ w with st := locksWakeUpBlocks { w.st with lock := m } right, left := left }, list)

def trimLeft (w : Walk I O) : LockState I O :=
  match w.left with
  | none => w.st
  | some left =>
    let m := w.st.lock
    locksWakeUpBlocks { w.st with lock := setStop m left ((m w.request).start - 1) } left

/-- `__posix_lock_file` after the loop, with the list split at `before`. -/
def finishLock (w : Walk I O) (inode : I) (newFl newFl2 : Option ℕ) (prev rest : List ℕ) :
    LockState I O × LockResult :=
  let m := w.st.lock
  let done (w : Walk I O) (rest : List ℕ) : LockState I O × LockResult :=
    let (w, list) := trimRight w newFl2 prev rest
    ((trimLeft w).setFlock inode list, .ok)
  if w.right ≠ none ∧ w.left = w.right ∧ newFl2 = none then
    (w.st.setFlock inode (prev ++ rest), .nolck)
  else if w.added = false then
    if (m w.request).type = .unlck then
      (w.st.setFlock inode (prev ++ rest), if (m w.request).flExists then .noent else .ok)
    else
      match newFl with
      | none => (w.st.setFlock inode (prev ++ rest), .nolck)
      | some new =>
        done { w with st := { w.st with lock := Function.update m new (m w.request) } } (new :: rest)
  else done w rest

def applyLock (s : LockState I O) (inode : I) (request : ℕ) (newFl newFl2 : Option ℕ) :
    LockState I O × LockResult :=
  let other := fun fl => !posixSameOwner (s.lock request) (s.lock fl)
  let prev := (s.flock inode).takeWhile other
  let rest := (s.flock inode).dropWhile other
  let (w, prev, rest) := processLocks prev rest ⟨s, request, none, none, false⟩
  finishLock w inode newFl newFl2 prev rest

/-- What `posix_test_lock` leaves in `fl`. -/
def posixTestLock (s : LockState I O) (inode : I) (fl : FileLock O) : FileLock O :=
  match (s.flock inode).find? fun cfl => posixLocksConflict fl (s.lock cfl) with
  | some cfl => s.lock cfl
  | none => { fl with type := .unlck }

/-- The lock that the request conflicts with. -/
def findConflict (s : LockState I O) (inode : I) (request : ℕ) : Option ℕ :=
  if (s.lock request).type = .unlck then none
  else (s.flock inode).find? fun fl => posixLocksConflict (s.lock request) (s.lock fl)

def needsNoLocks (fl : FileLock O) : Prop :=
  fl.flAccess = true ∨ (fl.type = .unlck ∧ fl.start = 0 ∧ fl.stop = offsetMax)

instance (fl : FileLock O) : Decidable (needsNoLocks fl) := inferInstanceAs (Decidable (_ ∨ _))

/-- `__posix_lock_file`; `newFl` and `newFl2` are what `locks_alloc_lock` returns. -/
def posixLockFile (s : LockState I O) (inode : I) (request : ℕ) (newFl newFl2 : Option ℕ) :
    Option (LockState I O × LockResult) :=
  let newFl := if needsNoLocks (s.lock request) then none else newFl
  let newFl2 := if needsNoLocks (s.lock request) then none else newFl2
  match findConflict s inode request with
  | some fl =>
    if (s.lock request).flSleep = false then some (s, .again)
    else if posixLocksDeadlock s request fl then some (s, .deadlk)
    else (locksInsertBlock s fl request).map fun s => (s, .deferred)
  | none =>
    if (s.lock request).flAccess then some (s, .ok)
    else some (applyLock s inode request newFl newFl2)

end

end LinuxKernel.Fs
