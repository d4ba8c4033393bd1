import LinuxKernel.Bitmap

/-!
# Shifting bitmaps down

`__bitmap_shift_right` of `lib/bitmap.c`.
-/

namespace LinuxKernel.Lib

variable {L : LongSize}

/-- The word `__bitmap_shift_right` stores at `k`. -/
def shiftRightWord (src : Bitmap L) (lim left off rem k : ℕ) : BitVec L.bits :=
  let mask := BitVec.ofNat L.bits (2 ^ left - 1)
  let upper :=
    if rem = 0 ∨ lim ≤ off + k + 1 then 0
    else if left ≠ 0 ∧ off + k + 1 = lim - 1 then src (off + k + 1) &&& mask
    else src (off + k + 1)
  let lower := if left ≠ 0 ∧ off + k = lim - 1 then src (off + k) &&& mask else src (off + k)
  let word := upper <<< (L.bits - rem) ||| lower >>> rem
  if left ≠ 0 ∧ k = lim - 1 then word &&& mask else word

/-- The loop of `__bitmap_shift_right`, `n` passes from `k` on; `view` as in `shiftLeftLoop`. -/
def shiftRightLoop (view : Bitmap L → Bitmap L) (lim left off rem : ℕ) :
    ℕ → ℕ → Bitmap L → Bitmap L
  | 0, _, dst => dst
  | n + 1, k, dst =>
    shiftRightLoop view lim left off rem n (k + 1)
      (Function.update dst k (shiftRightWord (view dst) lim left off rem k))

def bitmapShiftRight (view : Bitmap L → Bitmap L) (dst : Bitmap L) (shift bits : ℕ) : Bitmap L :=
  let lim := bitsToLongs L bits
  let off := shift / L.bits
  let dst := shiftRightLoop view lim (bits % L.bits) off (shift % L.bits) (lim - off) 0 dst
  fun k => if lim - off ≤ k ∧ k < lim - off + off then 0 else dst k

end LinuxKernel.Lib
