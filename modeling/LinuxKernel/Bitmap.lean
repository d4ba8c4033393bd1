import LinuxKernel.Text

/-!
# Bitmaps

`lib/bitmap.c`: arrays of `unsigned long` read as arrays of bits, their shift, and their printed
form of comma-separated groups of eight hexadecimal digits. An `int` that counts bits is a natural
below `2 ^ 31`.
-/

namespace LinuxKernel.Lib

abbrev Bitmap (L : LongSize) := ℕ → BitVec L.bits

def EFAULT : ℤ := 14
def EINVAL : ℤ := 22
def EOVERFLOW : ℤ := 75

def chunkSz : ℕ := 32

variable {L : LongSize}

def Bitmap.test (b : Bitmap L) (n : ℕ) : Bool := (b (n / L.bits)).getLsbD (n % L.bits)

def bitsToLongs (L : LongSize) (bits : ℕ) : ℕ := (bits + L.bits - 1) / L.bits

def bitmapZero (dst : Bitmap L) (nbits : ℕ) : Bitmap L :=
  fun k => if k < bitsToLongs L nbits then 0 else dst k

/-- The word `__bitmap_shift_left` stores at `k + off`. -/
def shiftLeftWord (src : Bitmap L) (lim left off rem k : ℕ) : BitVec L.bits :=
  let lower := if rem ≠ 0 ∧ 0 < k then src (k - 1) else 0
  let mask := BitVec.ofNat L.bits (2 ^ left - 1)
  let upper := if left ≠ 0 ∧ k = lim - 1 then src k &&& mask else src k
  let word := lower >>> (L.bits - rem) ||| upper <<< rem
  if left ≠ 0 ∧ k + off = lim - 1 then word &&& mask else word

/-- The loop of `__bitmap_shift_left`, entered with `k + 1` in place of `k`. `view` reads the source
from the destination as it stands: itself when `dst` is `src`, a fixed bitmap otherwise. -/
def shiftLeftLoop (view : Bitmap L → Bitmap L) (lim left off rem : ℕ) : ℕ → Bitmap L → Bitmap L
  | 0, dst => dst
  | k + 1, dst =>
    shiftLeftLoop view lim left off rem k
      (Function.update dst (k + off) (shiftLeftWord (view dst) lim left off rem k))

def bitmapShiftLeft (view : Bitmap L → Bitmap L) (dst : Bitmap L) (shift bits : ℕ) : Bitmap L :=
  let lim := bitsToLongs L bits
  let off := shift / L.bits
  let dst := shiftLeftLoop view lim (bits % L.bits) off (shift % L.bits) (lim - off) dst
  fun k => if k < off then 0 else dst k

def align (x a : BitVec 32) : BitVec 32 := (x + (a - 1)) &&& ~~~(a - 1)

/-- The loop of `bitmap_scnprintf` with `k` passes left, so that `i = CHUNKSZ * (k - 1)`; `out` is
what stands in the buffer so far. -/
def scnprintfLoop (maskp : Bitmap L) (buflen : ℕ) : ℕ → ℕ → List UInt8 → List UInt8 → List UInt8
  | 0, _, _, out => out
  | k + 1, chunksz, sep, out =>
    let chunkmask := BitVec.ofNat 32 (2 ^ chunksz - 1)
    let word := chunkSz * k / L.bits
    let bit := chunkSz * k % L.bits
    let val := maskp word >>> bit &&& chunkmask.setWidth L.bits
    scnprintfLoop maskp buflen k chunkSz [44]
      (out ++ scnprintf (buflen - out.length) (sep ++ numberHex val.toNat ((chunksz + 3) / 4)))

/-- `bitmap_scnprintf` into a non-empty buffer: what it leaves before the NUL. -/
def bitmapScnprintf (buflen : ℕ) (maskp : Bitmap L) (nmaskbits : ℕ) : List UInt8 :=
  let chunksz := if nmaskbits % chunkSz = 0 then chunkSz else nmaskbits % chunkSz
  let i := (align (BitVec.ofNat 32 nmaskbits) 32 - 32).toInt
  scnprintfLoop maskp buflen (i / chunkSz + 1).toNat chunksz [] []

def unhex (c : UInt8) : ℕ := if isdigit c then (c - 48).toNat else (toupper c - 65).toNat + 10

/-- The variables of the chunk loop of `__bitmap_parse`. -/
structure ChunkState where
  c : UInt8
  chunk : BitVec 32
  ndigits : ℕ
  totaldigits : ℕ

/-- The inner loop of `__bitmap_parse` over the bytes left in the buffer, a byte that `__get_user`
cannot read being `none`. It ends with an error or with the bytes after the chunk. -/
def getChunk : List (Option UInt8) → ChunkState → Except ℤ (List (Option UInt8) × ChunkState)
  | [], s => .ok ([], s)
  | none :: _, _ => .error EFAULT
  | some c :: buf, s =>
    if isspace c then getChunk buf { s with c := c }
    else if s.totaldigits ≠ 0 ∧ c ≠ 0 ∧ isspace s.c then .error EINVAL
    else if c = 0 ∨ c = 44 then .ok (buf, { s with c := c })
    else if ¬ isxdigit c then .error EINVAL
    else if s.chunk &&& ~~~((1 : BitVec 32) <<< (chunkSz - 4) - 1) ≠ 0 then .error EOVERFLOW
    else
      getChunk buf ⟨c, s.chunk <<< 4 ||| BitVec.ofNat 32 (unhex c), s.ndigits + 1, s.totaldigits + 1⟩

lemma getChunk_length : ∀ (buf : List (Option UInt8)) (s : ChunkState) {buf' s'},
    getChunk buf s = .ok (buf', s') → buf'.length + s'.ndigits ≤ buf.length + s.ndigits
  | [], s, buf', s', h => by
    simp only [getChunk, Except.ok.injEq, Prod.mk.injEq] at h
    obtain ⟨rfl, rfl⟩ := h
    exact le_rfl
  | none :: _, s, buf', s', h => by simp [getChunk] at h
  | some c :: buf, s, buf', s', h => by
    rw [getChunk] at h
    split_ifs at h
    · have := getChunk_length buf _ h
      simp only [List.length_cons] at this ⊢
      omega
    · simp only [Except.ok.injEq, Prod.mk.injEq] at h
      obtain ⟨rfl, rfl⟩ := h
      simp only [List.length_cons]
      omega
    · have := getChunk_length buf _ h
      simp only [List.length_cons] at this ⊢
      omega

/-- The outer loop of `__bitmap_parse`: its result and the bitmap it leaves. -/
def parseLoop (nmaskbits : ℕ) (buf : List (Option UInt8)) (c : UInt8)
    (totaldigits nchunks nbits : ℕ) (maskp : Bitmap L) : ℤ × Bitmap L :=
  match _h : getChunk buf ⟨c, 0, 0, totaldigits⟩ with
  | .error e => (-e, maskp)
  | .ok (buf', s) =>
    if _hd : s.ndigits = 0 then (-EINVAL, maskp)
    else if nchunks = 0 ∧ s.chunk = 0 then
      if buf' ≠ [] ∧ s.c = 44 then parseLoop nmaskbits buf' s.c s.totaldigits nchunks nbits maskp
      else (0, maskp)
    else
      let maskp := bitmapShiftLeft id maskp chunkSz nmaskbits
      let maskp := Function.update maskp 0 (maskp 0 ||| s.chunk.setWidth L.bits)
      let nchunks := nchunks + 1
      let nbits := nbits + if nchunks = 1 then s.chunk.toNat.size else chunkSz
      if nmaskbits < nbits then (-EOVERFLOW, maskp)
      else if buf' ≠ [] ∧ s.c = 44 then
        parseLoop nmaskbits buf' s.c s.totaldigits nchunks nbits maskp
      else (0, maskp)
termination_by buf.length
decreasing_by
  all_goals
    have := getChunk_length _ _ _h
    simp only [] at this
    omega

def bitmapParse (buf : List (Option UInt8)) (maskp : Bitmap L) (nmaskbits : ℕ) : ℤ × Bitmap L :=
  parseLoop nmaskbits buf 0 0 0 0 (bitmapZero maskp nmaskbits)

end LinuxKernel.Lib
