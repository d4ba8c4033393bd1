import Mathlib

/-!
# `sound/core/pcm_lib.c`: intervals of hardware parameters

An interval runs from `min` to `max`, each end open or closed.
-/

namespace LinuxKernel.Sound

def EINVAL : ℤ := 22

structure SndInterval where
  min : BitVec 32
  max : BitVec 32
  openmin : Bool
  openmax : Bool
  integer : Bool
  empty : Bool
deriving DecidableEq

def sndIntervalCheckempty (i : SndInterval) : Bool :=
  decide (i.max < i.min) || (i.min == i.max && (i.openmin || i.openmax))

def sndIntervalTest (i : SndInterval) (val : BitVec 32) : Bool :=
  !(decide (val < i.min) || (i.min == val && i.openmin)
    || decide (i.max < val) || (i.max == val && i.openmax))

def sndIntervalStep (i : SndInterval) (min step : BitVec 32) : SndInterval × ℤ :=
  let n := (i.min - min) % step
  let (i, changed) := if n ≠ 0 ∨ i.openmin then ({ i with min := i.min + (step - n) }, 1) else (i, 0)
  let n := (i.max - min) % step
  let (i, changed) := if n ≠ 0 ∨ i.openmax then ({ i with max := i.max - n }, 1) else (i, changed)
  if sndIntervalCheckempty i then ({ i with empty := true }, -EINVAL) else (i, changed)

end LinuxKernel.Sound
