import LinuxKernel.Align
import LinuxKernel.BitmapList

/-!
# Free areas of a bitmap

`find_next_zero_bit` of `lib/find_next_bit.c` and `bitmap_find_next_zero_area` of `lib/bitmap.c`.
-/

namespace LinuxKernel.Lib

variable {L : LongSize}

/-- The first clear bit of a word that has one. -/
def ffz {w : ℕ} (x : BitVec w) : ℕ := ffs (~~~x)

/-- From `found_first:` of `find_next_zero_bit`. -/
def foundFirstZero (tmp : BitVec L.bits) (result size : ℕ) : ℕ :=
  let tmp := tmp ||| (BitVec.allOnes L.bits <<< size)
  if tmp = BitVec.allOnes L.bits then result + size else result + ffz tmp

/-- The loop of `find_next_zero_bit` over whole words, `k` of them left, and the word after them. -/
def findZeroWords (addr : Bitmap L) (size : ℕ) : ℕ → ℕ → ℕ → ℕ
  | 0, p, result => if size = 0 then result else foundFirstZero (addr p) result size
  | k + 1, p, result =>
    if ~~~addr p ≠ 0 then result + ffz (addr p)
    else findZeroWords addr size k (p + 1) (result + L.bits)

def findNextZeroBit (addr : Bitmap L) (size offset : ℕ) : ℕ :=
  let p := offset / L.bits
  let result := offset / L.bits * L.bits
  if size ≤ offset then size
  else
    let size := size - result
    let offset := offset % L.bits
    if offset ≠ 0 then
      let tmp := addr p ||| (BitVec.allOnes L.bits >>> (L.bits - offset))
      if size < L.bits then foundFirstZero tmp result size
      else if ~~~tmp ≠ 0 then result + ffz tmp
      else
        let size := size - L.bits
        findZeroWords addr (size % L.bits) (size / L.bits) (p + 1) (result + L.bits)
    else findZeroWords addr (size % L.bits) (size / L.bits) p result

def alignMaskUp (L : LongSize) (x mask : ℕ) : ℕ := andNot L.bits (addMod L.bits x mask) mask

/-- The code of `bitmap_find_next_zero_area` from `again:` on. -/
def zeroAreaPass (map : Bitmap L) (size nr alignMask start : ℕ) : Pass ℕ ℕ :=
  let index := alignMaskUp L (findNextZeroBit map size start) alignMask
  let fin := addMod L.bits index nr
  if size < fin then .leave fin
  else
    let i := findNextBit map fin index
    if i < fin then .again (addMod L.bits i 1) else .leave index

def bitmapFindNextZeroArea (fuel : ℕ) (map : Bitmap L) (size start nr alignMask : ℕ) : Option ℕ :=
  Pass.run (zeroAreaPass map size nr alignMask) fuel start

end LinuxKernel.Lib
