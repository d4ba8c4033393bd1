import LinuxKernel.Word

/-!
# Rounding of jiffies

`round_jiffies_common` of `kernel/timer.c`, with the comparisons of `linux/jiffies.h`. `jiffies` is
the value of the counter when the function reads it.
-/

namespace LinuxKernel.Timer

variable {L : LongSize}

/-- `HZ`, within what `linux/jiffies.h` accepts. -/
structure Hz where
  hz : ℕ
  ge : 12 ≤ hz
  lt : hz < 12288

def timeAfter (a b : BitVec L.bits) : Prop := (b - a).toInt < 0

instance (a b : BitVec L.bits) : Decidable (timeAfter a b) := inferInstanceAs (Decidable (_ < _))

def timeBefore (a b : BitVec L.bits) : Prop := timeAfter b a

def roundJiffiesCommon (HZ : Hz) (jiffies j : BitVec L.bits) (cpu : ℕ) (forceUp : Bool) :
    BitVec L.bits :=
  let original := j
  let j := j + BitVec.ofNat _ (cpu * 3)
  let rem := j.toNat % HZ.hz
  let j :=
    if rem < HZ.hz / 4 ∧ ¬ forceUp then j - BitVec.ofNat _ rem
    else j - BitVec.ofNat _ rem + BitVec.ofNat _ HZ.hz
  let j := j - BitVec.ofNat _ (cpu * 3)
  if j.toNat ≤ jiffies.toNat then original else j

end LinuxKernel.Timer
