import LinuxKernel.BitmapList
import LinuxKernel.Rank

/-!
# Maps between the set bits of bitmaps

`bitmap_weight`, `bitmap_remap`, `bitmap_onto` and `bitmap_fold` of `lib/bitmap.c`. `inplace` stands
for the test whether the destination is the source. A loop that meets a `BUG_ON` has no result.
-/

namespace LinuxKernel.Lib

variable {L : LongSize} {σ : Type*}

def hweightLong {w : ℕ} (x : BitVec w) : ℕ := bitRank x.getLsbD w

/-- The loop of `__bitmap_weight` over the first `k` words. -/
def weightWords (bitmap : Bitmap L) : ℕ → ℕ
  | 0 => 0
  | k + 1 => weightWords bitmap k + hweightLong (bitmap k)

def bitmapWeight (bitmap : Bitmap L) (bits : ℕ) : ℕ :=
  let w := weightWords bitmap (bits / L.bits)
  if bits % L.bits ≠ 0 then
    w + hweightLong (bitmap (bits / L.bits) &&& BitVec.ofNat L.bits (2 ^ (bits % L.bits) - 1))
  else w

/-- A pass of `for_each_set_bit` with the body `f`. -/
def setBitPass (addr : Bitmap L) (size : ℕ) (f : ℕ → σ → Option σ) (s : ℕ × σ) :
    Pass (ℕ × σ) (Option σ) :=
  if s.1 < size then
    match f s.1 s.2 with
    | none => .leave none
    | some s' => .again (findNextBit addr size (s.1 + 1), s')
  else .leave (some s.2)

def forEachSetBit (addr : Bitmap L) (size : ℕ) (f : ℕ → σ → Option σ) (s : σ) : Option σ :=
  (Pass.run (setBitPass addr size f) (size + 1) (findFirstBit addr size, s)).join

/-- A pass of the loop of `bitmap_pos_to_ord`, which leaves through `BUG_ON`. -/
def posToOrdPass (buf : Bitmap L) (pos bits : ℕ) (s : ℕ × ℕ) : Pass (ℕ × ℕ) (Option ℕ) :=
  if s.1 < pos then .again (findNextBit buf bits (s.1 + 1), s.2 + 1)
  else if s.1 ≠ pos then .leave none
  else .leave (some s.2)

def bitmapPosToOrd (buf : Bitmap L) (pos bits : ℕ) : Option ℤ :=
  if bits ≤ pos ∨ ¬ buf.test pos then some (-1)
  else (Pass.run (posToOrdPass buf pos bits) (pos + 1) (findFirstBit buf bits, 0)).join.map Nat.cast

/-- A pass of the loop of `bitmap_ord_to_pos` and the code after it. -/
def ordToPosPass (buf : Bitmap L) (bits : ℕ) (s : ℕ × ℕ) : Pass (ℕ × ℕ) ℕ :=
  if s.1 < bits ∧ 0 < s.2 then .again (findNextBit buf bits (s.1 + 1), s.2 - 1)
  else .leave (if s.1 < bits ∧ s.2 = 0 then s.1 else 0)

def bitmapOrdToPos (buf : Bitmap L) (ord bits : ℕ) : Option ℕ :=
  if ord < bits then Pass.run (ordToPosPass buf bits) (ord + 1) (findFirstBit buf bits, ord)
  else some 0

/-- The body of the loop of `bitmap_remap`. -/
def remapBit (old new : Bitmap L) (w bits oldbit : ℕ) (dst : Bitmap L) : Option (Bitmap L) :=
  match bitmapPosToOrd old oldbit bits with
  | none => none
  | some n =>
    if n < 0 ∨ w = 0 then some (dst.set oldbit)
    else (bitmapOrdToPos new (n.toNat % w) bits).map dst.set

def bitmapRemap (inplace : Bool) (dst src old new : Bitmap L) (bits : ℕ) : Option (Bitmap L) :=
  if inplace then some dst
  else forEachSetBit src bits (remapBit old new (bitmapWeight new bits) bits) (bitmapZero dst bits)

/-- The body of the loop of `bitmap_onto`, on `m` and the destination. -/
def ontoBit (orig : Bitmap L) (n : ℕ) (s : ℕ × Bitmap L) : ℕ × Bitmap L :=
  (s.1 + 1, if orig.test s.1 then s.2.set n else s.2)

def bitmapOnto (inplace : Bool) (dst orig relmap : Bitmap L) (bits : ℕ) : Option (Bitmap L) :=
  if inplace then some dst
  else (forEachSetBit relmap bits (fun n s => some (ontoBit orig n s))
    (0, bitmapZero dst bits)).map Prod.snd

def bitmapFold (inplace : Bool) (dst orig : Bitmap L) (sz bits : ℕ) : Option (Bitmap L) :=
  if inplace then some dst
  else forEachSetBit orig bits (fun oldbit dst => some (dst.set (oldbit % sz)))
    (bitmapZero dst bits)

end LinuxKernel.Lib
