import LinuxKernel.Word

/-!
# Extensible bitmaps

The list of `security/selinux/ss/ebitmap.c` and the levels of `mls_types.h` that use it. A bitmap is
the list of its nodes and `highbit`; `startbit` and `highbit` have 32 bits. Allocations succeed, and
a `BUG_ON` that fires is `none`.
-/

namespace LinuxKernel.Selinux

variable {L : LongSize}

/-- `EBITMAP_UNIT_NUMS`, with `sizeof(void *)` and `sizeof(unsigned long)` the same. -/
def ebitmapUnitNums (L : LongSize) : ℕ := (32 - L.bits / 8 - 4) / (L.bits / 8)

def ebitmapSize (L : LongSize) : ℕ := ebitmapUnitNums L * L.bits

structure EbitmapNode (L : LongSize) where
  maps : Fin (ebitmapUnitNums L) → BitVec L.bits
  startbit : ℕ

structure Ebitmap (L : LongSize) where
  node : List (EbitmapNode L)
  highbit : ℕ

def EbitmapNode.index (n : EbitmapNode L) (bit : ℕ) : ℕ := (bit - n.startbit) / L.bits

def EbitmapNode.mask (n : EbitmapNode L) (bit : ℕ) : BitVec L.bits :=
  1#L.bits <<< ((bit - n.startbit) % L.bits)

def ebitmapNodeGetBit (n : EbitmapNode L) (bit : ℕ) : Option Bool :=
  if h : n.index bit < ebitmapUnitNums L then
    some (decide (n.maps ⟨n.index bit, h⟩ &&& n.mask bit ≠ 0#L.bits))
  else none

def ebitmapNodeSetBit (n : EbitmapNode L) (bit : ℕ) : Option (EbitmapNode L) :=
  if h : n.index bit < ebitmapUnitNums L then
    some { n with maps :=
      Function.update n.maps ⟨n.index bit, h⟩ (n.maps ⟨n.index bit, h⟩ ||| n.mask bit) }
  else none

def ebitmapNodeClrBit (n : EbitmapNode L) (bit : ℕ) : Option (EbitmapNode L) :=
  if h : n.index bit < ebitmapUnitNums L then
    some { n with maps :=
      Function.update n.maps ⟨n.index bit, h⟩ (n.maps ⟨n.index bit, h⟩ &&& ~~~(n.mask bit)) }
  else none

/-- A bit of the array `maps`. -/
def EbitmapNode.test (n : EbitmapNode L) (i : ℕ) : Bool :=
  if h : i / L.bits < ebitmapUnitNums L then
    (n.maps ⟨i / L.bits, h⟩).getLsbD (i % L.bits)
  else false

/-- `find_first_bit(n->maps, EBITMAP_SIZE)`. -/
def EbitmapNode.findFirstBit (n : EbitmapNode L) : ℕ :=
  ((List.range (ebitmapSize L)).find? n.test).getD (ebitmapSize L)

def ebitmapInit : Ebitmap L := ⟨[], 0⟩

def ebitmapCmp (e1 e2 : Ebitmap L) : Bool :=
  if e1.highbit ≠ e2.highbit then false else loop e1.node e2.node
where
  loop : List (EbitmapNode L) → List (EbitmapNode L) → Bool
    | n1 :: l1, n2 :: l2 => if n1.startbit = n2.startbit ∧ n1.maps = n2.maps then loop l1 l2 else false
    | [], [] => true
    | _, _ => false

/-- `ebitmap_cpy`: the copy is made node by node. -/
def ebitmapCpy (src : Ebitmap L) : Ebitmap L :=
  ⟨src.node.foldl (fun dst n => dst ++ [⟨n.maps, n.startbit⟩]) [], src.highbit⟩

def ebitmapContains (e1 e2 : Ebitmap L) : Bool :=
  if e1.highbit < e2.highbit then false else loop e1.node e2.node
where
  loop : List (EbitmapNode L) → List (EbitmapNode L) → Bool
    | _, [] => true
    | [], _ :: _ => false
    | n1 :: l1, n2 :: l2 =>
      if n1.startbit ≤ n2.startbit then
        if n1.startbit < n2.startbit then loop l1 (n2 :: l2)
        else if ∀ i, n1.maps i &&& n2.maps i = n2.maps i then loop l1 l2
        else false
      else false

def ebitmapGetBit (e : Ebitmap L) (bit : ℕ) : Option Bool :=
  if e.highbit < bit then some false else loop e.node
where
  loop : List (EbitmapNode L) → Option Bool
    | [] => some false
    | n :: l =>
      if n.startbit ≤ bit then
        if bit < addMod L.bits n.startbit (ebitmapSize L) then ebitmapNodeGetBit n (bit % 2 ^ 32)
        else loop l
      else some false

/-- The new node for a bit. -/
def ebitmapNew (bit : ℕ) : Option (EbitmapNode L) :=
  ebitmapNodeSetBit ⟨fun _ => 0, (bit - bit % ebitmapSize L) % 2 ^ 32⟩ (bit % 2 ^ 32)

/-- `startbit + EBITMAP_SIZE`, as `highbit`. -/
def EbitmapNode.stop (n : EbitmapNode L) : ℕ := (n.startbit + ebitmapSize L) % 2 ^ 32

/-- The loop of `ebitmap_set_bit`: the list from `n` on with `prev` before it, and `highbit`. -/
def setBitLoop (bit : ℕ) (value : Bool) (highbit : ℕ) (prev : Option (EbitmapNode L)) :
    List (EbitmapNode L) → Option (List (EbitmapNode L) × ℕ)
  | [] =>
    if value then (ebitmapNew bit).map fun new => ([new], new.stop) else some ([], highbit)
  | n :: l =>
    if n.startbit ≤ bit then
      if bit < addMod L.bits n.startbit (ebitmapSize L) then
        if value then (ebitmapNodeSetBit n (bit % 2 ^ 32)).map fun n => (n :: l, highbit)
        else
          (ebitmapNodeClrBit n (bit % 2 ^ 32)).map fun n =>
            if n.findFirstBit < ebitmapSize L then (n :: l, highbit)
            else (l, if l.isEmpty then (prev.map EbitmapNode.stop).getD 0 else highbit)
      else (setBitLoop bit value highbit (some n) l).map fun r => (n :: r.1, r.2)
    else if value then (ebitmapNew bit).map fun new => (new :: n :: l, highbit)
    else some (n :: l, highbit)

def ebitmapSetBit (e : Ebitmap L) (bit : ℕ) (value : Bool) : Option (Ebitmap L) :=
  (setBitLoop bit value e.highbit none e.node).map fun r => ⟨r.1, r.2⟩

/-- `next_entry`: the bytes read and those left. -/
def nextEntry (fp : List UInt8) (bytes : ℕ) : Option (List UInt8 × List UInt8) :=
  if fp.length < bytes then none else some (fp.take bytes, fp.drop bytes)

/-- `le32_to_cpu` and `le64_to_cpu`. -/
def leToCpu : List UInt8 → ℕ
  | [] => 0
  | b :: l => b.toNat + 2 ^ 8 * leToCpu l

/-- The loop `while (map)`: a `u64` has `k` words. -/
def storeMap : ℕ → EbitmapNode L → ℕ → BitVec 64 → Option (EbitmapNode L)
  | 0, n, _, _ => some n
  | k + 1, n, index, map =>
    if map = 0 then some n
    else if h : index < ebitmapUnitNums L then
      storeMap k { n with maps := Function.update n.maps ⟨index, h⟩ (map.setWidth L.bits) } (index + 1)
        (map >>> L.bits)
    else none

/-- The nodes of `e`, the last one first, with one for `startbit` at the front. -/
def readNode (startbit : ℕ) : List (EbitmapNode L) → Option (List (EbitmapNode L))
  | [] => some [⟨fun _ => 0, startbit - startbit % ebitmapSize L⟩]
  | n :: l =>
    if addMod L.bits n.startbit (ebitmapSize L) ≤ startbit then
      some (⟨fun _ => 0, startbit - startbit % ebitmapSize L⟩ :: n :: l)
    else if startbit ≤ n.startbit then none
    else some (n :: l)

/-- The loop of `ebitmap_read`, with the nodes read so far, the last one first. Here `highbit` is a
multiple of `EBITMAP_SIZE`, and not 0. -/
def readLoop (highbit : ℕ) : ℕ → List (EbitmapNode L) → List UInt8 → Option (List (EbitmapNode L))
  | 0, l, _ => some l
  | count + 1, l, fp =>
    (nextEntry fp 4).bind fun (buf, fp) =>
      let startbit := leToCpu buf
      if startbit % 64 ≠ 0 ∨ highbit - 64 < startbit then none
      else
        (readNode startbit l).bind fun l =>
          (nextEntry fp 8).bind fun (buf, fp) =>
            match l with
            | [] => none
            | n :: l =>
              (storeMap (64 / L.bits) n ((startbit - n.startbit) / L.bits)
                (BitVec.ofNat 64 (leToCpu buf))).bind fun n => readLoop highbit count (n :: l) fp

def roundHighbit (L : LongSize) (highbit : ℕ) : ℕ :=
  let highbit := addMod 32 highbit (ebitmapSize L - 1)
  highbit - highbit % ebitmapSize L

/-- `ebitmap_read`. A negative result is `none`, and so is a word written outside `maps`. -/
def ebitmapRead (L : LongSize) (fp : List UInt8) : Option (Ebitmap L) :=
  (nextEntry fp 12).bind fun (buf, fp) =>
    let mapunit := leToCpu (buf.take 4)
    let highbit := roundHighbit L (leToCpu ((buf.drop 4).take 4))
    let count := leToCpu (buf.drop 8)
    if mapunit ≠ 64 then none
    else if highbit = 0 then some ⟨[], 0⟩
    else (readLoop highbit count [] fp).map fun l => ⟨l.reverse, highbit⟩

structure MlsLevel (L : LongSize) where
  sens : ℕ
  cat : Ebitmap L

def mlsLevelEq (l1 l2 : MlsLevel L) : Bool :=
  decide (l1.sens = l2.sens) && ebitmapCmp l1.cat l2.cat

def mlsLevelDom (l1 l2 : MlsLevel L) : Bool :=
  decide (l2.sens ≤ l1.sens) && ebitmapContains l1.cat l2.cat

def mlsLevelBetween (l1 l2 l3 : MlsLevel L) : Bool := mlsLevelDom l1 l2 && mlsLevelDom l3 l1

/-- `struct mls_range`: `level[0]` and `level[1]`. -/
structure MlsRange (L : LongSize) where
  low : MlsLevel L
  high : MlsLevel L

def mlsRangeContains (r1 r2 : MlsRange L) : Bool :=
  mlsLevelDom r2.low r1.low && mlsLevelDom r1.high r2.high

end LinuxKernel.Selinux
