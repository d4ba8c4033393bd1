import LinuxKernel.Word

/-!
# `net/sctp/tsnmap.c`: the TSNs received

A TSN is a `BitVec 32`. The bitmap `tsn_map` gives each bit below `len`; bits past `len` are clear.
Allocations succeed. `BITS_PER_LONG` is the initial length of the map and the step it grows by.
-/

namespace LinuxKernel.Sctp

abbrev Tsn := BitVec 32

def SCTP_TSN_MAP_SIZE : ℕ := 4096

def tsnLt (s t : Tsn) : Bool := (s - t).msb

def tsnLte (s t : Tsn) : Bool := s == t || tsnLt s t

structure Tsnmap where
  tsnMap : ℕ → Bool
  baseTsn : Tsn
  cumulativeTsnAckPoint : Tsn
  maxTsnSeen : Tsn
  len : ℕ

variable (L : LongSize)

def sctpTsnmapInit (initialTsn : Tsn) : Tsnmap :=
  ⟨fun _ => false, initialTsn, initialTsn - 1, initialTsn - 1, L.bits⟩

def sctpTsnmapCheck (map : Tsnmap) (tsn : Tsn) : ℤ :=
  if tsnLte tsn map.cumulativeTsnAckPoint then 1
  else if ¬ tsnLt tsn (map.baseTsn + BitVec.ofNat 32 SCTP_TSN_MAP_SIZE) then -1
  else
    let gap := (tsn - map.baseTsn).toNat
    if gap < map.len ∧ map.tsnMap gap then 1 else 0

/-- `find_first_zero_bit(map, n)`, from bit `i` on. -/
def firstZero (bits : ℕ → Bool) : ℕ → ℕ → ℕ
  | 0, i => i
  | n + 1, i => if bits i then firstZero bits n (i + 1) else i

def shiftRight (bits : ℕ → Bool) (k len : ℕ) : ℕ → Bool :=
  fun i => decide (i + k < len) && bits (i + k)

/-- `BITS_TO_LONGS`, of an `int`. -/
def bitsToLongs (nbits : Tsn) : ℕ :=
  ((nbits.signExtend L.bits).toNat + (L.bits - 1)) % 2 ^ L.bits / L.bits

/-- `bitmap_copy` into a bitmap that is clear: whole longs are copied. -/
def bitmapCopy (bits : ℕ → Bool) (nbits : Tsn) : ℕ → Bool :=
  fun i => decide (i < bitsToLongs L nbits * L.bits) && bits i

def sctpTsnmapHasGap (map : Tsnmap) : Bool := map.cumulativeTsnAckPoint != map.maxTsnSeen

def sctpTsnmapUpdate (map : Tsnmap) : Tsnmap :=
  let len := (map.maxTsnSeen - map.cumulativeTsnAckPoint).toNat % 2 ^ 16
  let zeroBit := firstZero map.tsnMap len 0
  if zeroBit = 0 then map
  else { map with
    baseTsn := map.baseTsn + BitVec.ofNat 32 zeroBit
    cumulativeTsnAckPoint := map.cumulativeTsnAckPoint + BitVec.ofNat 32 zeroBit
    tsnMap := shiftRight map.tsnMap zeroBit map.len }

/-- `sctp_tsnmap_grow`; `none` is its 0. -/
def sctpTsnmapGrow (map : Tsnmap) (gap : ℕ) : Option Tsnmap :=
  if SCTP_TSN_MAP_SIZE ≤ gap then none
  else
    let inc := (gap - map.len + (L.bits - 1)) / L.bits * L.bits + L.bits
    some { map with
      tsnMap := bitmapCopy L map.tsnMap (map.maxTsnSeen - map.baseTsn)
      len := min ((map.len + inc) % 2 ^ 16) SCTP_TSN_MAP_SIZE }

/-- `sctp_tsnmap_mark` once the map is long enough. -/
def markGap (map : Tsnmap) (tsn : Tsn) (gap : ℕ) : Tsnmap :=
  if ¬ sctpTsnmapHasGap map ∧ gap = 0 then
    { map with
      maxTsnSeen := map.maxTsnSeen + 1
      cumulativeTsnAckPoint := map.cumulativeTsnAckPoint + 1
      baseTsn := map.baseTsn + 1 }
  else
    sctpTsnmapUpdate { map with
      maxTsnSeen := if tsnLt map.maxTsnSeen tsn then tsn else map.maxTsnSeen
      tsnMap := Function.update map.tsnMap gap true }

def sctpTsnmapMark (map : Tsnmap) (tsn : Tsn) : Tsnmap :=
  if tsnLt tsn map.baseTsn then map
  else
    let gap := (tsn - map.baseTsn).toNat % 2 ^ 16
    if map.len ≤ gap then
      match sctpTsnmapGrow L map gap with
      | none => map
      | some map => markGap map tsn gap
    else markGap map tsn gap

def sctpTsnmapSkip (map : Tsnmap) (tsn : Tsn) : Tsnmap :=
  if tsnLt tsn map.baseTsn then map
  else if ¬ tsnLt tsn (map.baseTsn + BitVec.ofNat 32 SCTP_TSN_MAP_SIZE) then map
  else
    let gap := (tsn - map.baseTsn + 1).toNat
    let map := { map with
      maxTsnSeen := if tsnLt map.maxTsnSeen tsn then tsn else map.maxTsnSeen
      baseTsn := map.baseTsn + BitVec.ofNat 32 gap
      cumulativeTsnAckPoint := map.cumulativeTsnAckPoint + BitVec.ofNat 32 gap }
    if map.len ≤ gap then { map with tsnMap := fun _ => false }
    else sctpTsnmapUpdate { map with tsnMap := shiftRight map.tsnMap gap map.len }

def SCTP_MAX_GABS : ℕ := 16

def findNextZeroBit (bits : ℕ → Bool) (len off : ℕ) : ℕ :=
  if len ≤ off then len else firstZero bits (len - off) off

def findNextBit (bits : ℕ → Bool) (len off : ℕ) : ℕ := findNextZeroBit (fun i => !bits i) len off

/-- `sctp_tsnmap_find_gap_ack`, whose results start as 0. -/
def sctpTsnmapFindGapAck (bits : ℕ → Bool) (off len : ℕ) : ℕ × ℕ :=
  let i := findNextBit bits len off
  let start := if i < len then i else 0
  if start ≠ 0 then
    let i := findNextZeroBit bits len i
    (start, if i < len then i - 1 else 0)
  else (start, 0)

/-- `sctp_tsnmap_next_gap_ack`: the block and the iterator after it. -/
def sctpTsnmapNextGapAck (map : Tsnmap) (iter : Tsn) : Option ((ℕ × ℕ) × Tsn) :=
  if tsnLte map.maxTsnSeen iter then none
  else
    let offset := (iter - map.baseTsn).toNat % 2 ^ 16
    let (start_, end_) := sctpTsnmapFindGapAck map.tsnMap offset map.len
    let end_ := if start_ ≠ 0 ∧ end_ = 0 then map.len - 1 else end_
    if end_ ≠ 0 then
      let fin := (end_ + 1) % 2 ^ 16
      some (((start_ + 1) % 2 ^ 16, fin), map.cumulativeTsnAckPoint + BitVec.ofNat 32 fin + 1)
    else none

/-- The loop of `sctp_tsnmap_num_gabs`, with room for `n` more blocks. -/
def numGabsLoop (map : Tsnmap) : ℕ → Tsn → List (ℕ × ℕ)
  | 0, _ => []
  | n + 1, iter =>
    match sctpTsnmapNextGapAck map iter with
    | none => []
    | some (gab, iter) => gab :: numGabsLoop map n iter

/-- The blocks stored by `sctp_tsnmap_num_gabs`, before `htons`. -/
def sctpTsnmapNumGabs (map : Tsnmap) : List (ℕ × ℕ) :=
  if sctpTsnmapHasGap map then numGabsLoop map SCTP_MAX_GABS (map.cumulativeTsnAckPoint + 1) else []

end LinuxKernel.Sctp
