import LinuxKernel.Word

/-!
# The timer wheel

`internal_add_timer`, `cascade` and the loop of `__run_timers` of `kernel/timer.c`. The vectors `tv2`
to `tv5` are the levels 0 to 3 of `tv`; an index is a natural, below the size of the vector by its
mask. The callbacks run with the lock released, so timers may be added between any two of them.
-/

namespace LinuxKernel.Timer

/-- `CONFIG_BASE_SMALL`, and the width of an `unsigned long`. -/
structure Config where
  baseSmall : Bool
  long : LongSize

def Config.tvnBits (c : Config) : ℕ := if c.baseSmall then 4 else 6

def Config.tvrBits (c : Config) : ℕ := if c.baseSmall then 6 else 8

abbrev Config.Ulong (c : Config) := BitVec c.long.bits

/-- The lowest bit of the index into level `k`. -/
def Config.shift (c : Config) (k : ℕ) : ℕ := c.tvrBits + k * c.tvnBits

variable {c : Config} {α : Type*}

/-- `struct timer_list`; `data` stands for the function and its argument. -/
structure TimerList (c : Config) (α : Type*) where
  expires : c.Ulong
  data : α
deriving DecidableEq

structure TvecBase (c : Config) (α : Type*) where
  timerJiffies : c.Ulong
  tv1 : ℕ → List (TimerList c α)
  tv : ℕ → ℕ → List (TimerList c α)

/-- A list of the wheel. -/
inductive Slot where
  | root (i : ℕ)
  | level (k i : ℕ)

def rootIndex (x : c.Ulong) : ℕ := x.toNat % 2 ^ c.tvrBits

/-- `(x >> (TVR_BITS + k * TVN_BITS)) & TVN_MASK`. -/
def levelIndex (k : ℕ) (x : c.Ulong) : ℕ := x.toNat / 2 ^ c.shift k % 2 ^ c.tvnBits

/-- The list `internal_add_timer` chooses. -/
def slotFor (timerJiffies expires : c.Ulong) : Slot :=
  let idx := expires - timerJiffies
  if idx.toNat < 2 ^ c.tvrBits then .root (rootIndex expires)
  else if idx.toNat < 2 ^ c.shift 1 then .level 0 (levelIndex 0 expires)
  else if idx.toNat < 2 ^ c.shift 2 then .level 1 (levelIndex 1 expires)
  else if idx.toNat < 2 ^ c.shift 3 then .level 2 (levelIndex 2 expires)
  else if idx.toInt < 0 then .root (rootIndex timerJiffies)
  else
    let expires :=
      if 0xffffffff < idx.toNat then BitVec.ofNat c.long.bits 0xffffffff + timerJiffies else expires
    .level 3 (levelIndex 3 expires)

def TvecBase.addTail (base : TvecBase c α) (timer : TimerList c α) : Slot → TvecBase c α
  | .root i => { base with tv1 := Function.update base.tv1 i (base.tv1 i ++ [timer]) }
  | .level k i =>
    { base with
      tv := Function.update base.tv k (Function.update (base.tv k) i (base.tv k i ++ [timer])) }

def internalAddTimer (base : TvecBase c α) (timer : TimerList c α) : TvecBase c α :=
  base.addTail timer (slotFor base.timerJiffies timer.expires)

/-- `list_replace_init` on `tv->vec + index`. -/
def TvecBase.clear (base : TvecBase c α) (k index : ℕ) : TvecBase c α :=
  { base with tv := Function.update base.tv k (Function.update (base.tv k) index []) }

def cascade (base : TvecBase c α) (k index : ℕ) : TvecBase c α :=
  (base.tv k index).foldl internalAddTimer (base.clear k index)

def TvecBase.index (base : TvecBase c α) (k : ℕ) : ℕ := levelIndex k base.timerJiffies

/-- The cascades from level `k` on: each goes on to the next level when its index was 0. -/
def cascadeFrom : ℕ → ℕ → TvecBase c α → TvecBase c α
  | 0, _, base => base
  | n + 1, k, base =>
    let base' := cascade base k (base.index k)
    if base.index k = 0 then cascadeFrom n (k + 1) base' else base'

/-- The loop of `__run_timers` up to its inner loop: the list of timers to run, and the wheel. -/
def runTimersPass (base : TvecBase c α) : List (TimerList c α) × TvecBase c α :=
  let index := rootIndex base.timerJiffies
  let base := if index = 0 then cascadeFrom 4 0 base else base
  (base.tv1 index,
    { base with timerJiffies := base.timerJiffies + 1, tv1 := Function.update base.tv1 index [] })

def TvecBase.init (timerJiffies : c.Ulong) : TvecBase c α := ⟨timerJiffies, fun _ => [], fun _ _ => []⟩

end LinuxKernel.Timer
