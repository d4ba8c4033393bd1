import LinuxKernel.Bitmap
import LinuxKernel.Loop

/-!
# Socket filters

`sk_run_filter` and `sk_chk_filter` of `net/core/filter.c`, with the loads from a packet and the
search for netlink attributes they use. The two functions switch over the instruction codes
separately; a code that is not built from the fields of `linux/filter.h` is in neither switch.

Where C leaves the outcome open, or the program would touch something outside its arrays, the
interpreter stops and says so. A shift by 32 or more is taken modulo 32, as the hardware does.
-/

namespace LinuxKernel.Net

open Lib (EINVAL)

inductive Size where
  | w | h | b
deriving DecidableEq

inductive Mode where
  | imm | abs | ind | mem | len | msh
deriving DecidableEq

inductive AluOp where
  | add | sub | mul | div | or | and | lsh | rsh | neg
deriving DecidableEq

inductive JmpOp where
  | ja | jeq | jgt | jge | jset
deriving DecidableEq

inductive Src where
  | k | x
deriving DecidableEq

inductive RVal where
  | k | x | a
deriving DecidableEq

inductive MiscOp where
  | tax | txa
deriving DecidableEq

/-- The codes that can be written with the fields of `linux/filter.h`. -/
inductive Code where
  | ld (size : Size) (mode : Mode)
  | ldx (size : Size) (mode : Mode)
  | st
  | stx
  | alu (op : AluOp) (src : Src)
  | jmp (op : JmpOp) (src : Src)
  | ret (rval : RVal)
  | misc (op : MiscOp)
deriving DecidableEq

def Size.value : Size → ℕ
  | .w => 0x00
  | .h => 0x08
  | .b => 0x10

def Mode.value : Mode → ℕ
  | .imm => 0x00
  | .abs => 0x20
  | .ind => 0x40
  | .mem => 0x60
  | .len => 0x80
  | .msh => 0xa0

def AluOp.value : AluOp → ℕ
  | .add => 0x00
  | .sub => 0x10
  | .mul => 0x20
  | .div => 0x30
  | .or => 0x40
  | .and => 0x50
  | .lsh => 0x60
  | .rsh => 0x70
  | .neg => 0x80

def JmpOp.value : JmpOp → ℕ
  | .ja => 0x00
  | .jeq => 0x10
  | .jgt => 0x20
  | .jge => 0x30
  | .jset => 0x40

def Src.value : Src → ℕ
  | .k => 0x00
  | .x => 0x08

def RVal.value : RVal → ℕ
  | .k => 0x00
  | .x => 0x08
  | .a => 0x10

def MiscOp.value : MiscOp → ℕ
  | .tax => 0x00
  | .txa => 0x80

def bpfRet : ℕ := 0x06

def bpfClass (code : ℕ) : ℕ := code &&& 0x07

def Code.value : Code → ℕ
  | .ld size mode => 0x00 ||| size.value ||| mode.value
  | .ldx size mode => 0x01 ||| size.value ||| mode.value
  | .st => 0x02
  | .stx => 0x03
  | .alu op src => 0x04 ||| op.value ||| src.value
  | .jmp op src => 0x05 ||| op.value ||| src.value
  | .ret rval => bpfRet ||| rval.value
  | .misc op => 0x07 ||| op.value

def Code.all : List Code :=
  let sizes := [Size.w, .h, .b]
  let modes := [Mode.imm, .abs, .ind, .mem, .len, .msh]
  let aluOps := [AluOp.add, .sub, .mul, .div, .or, .and, .lsh, .rsh, .neg]
  let jmpOps := [JmpOp.ja, .jeq, .jgt, .jge, .jset]
  let srcs := [Src.k, .x]
  sizes.flatMap (fun s => modes.map (.ld s)) ++ sizes.flatMap (fun s => modes.map (.ldx s))
    ++ [.st, .stx] ++ aluOps.flatMap (fun op => srcs.map (.alu op))
    ++ jmpOps.flatMap (fun op => srcs.map (.jmp op)) ++ [RVal.k, .x, .a].map .ret
    ++ [MiscOp.tax, .txa].map .misc

def decode (code : BitVec 16) : Option Code := Code.all.find? fun c => c.value == code.toNat

/-- What the layout of data in memory depends on. -/
structure Machine where
  long : LongSize
  bigEndian : Bool

structure NetDevice where
  ifindex : BitVec 32
  type : BitVec 16

/-- A packet. `mem` is the memory around `skb->data`, to which `head`, `tail` and the header pointers
are relative; `frag` holds the bytes after the linear part. `protocol` is in host order. -/
structure SkBuff where
  mem : ℤ → BitVec 8
  frag : ℕ → BitVec 8
  len : BitVec 32
  dataLen : BitVec 32
  head : ℤ
  tail : ℤ
  networkHeader : ℤ
  macHeader : ℤ
  protocol : BitVec 16
  pktType : BitVec 3
  dev : Option NetDevice
  mark : BitVec 32
  queueMapping : BitVec 16

def skfAdOff : ℤ := -0x1000
def skfNetOff : ℤ := -0x100000
def skfLlOff : ℤ := -0x200000

def SkBuff.headlen (skb : SkBuff) : ℤ := (skb.len - skb.dataLen).toInt

def SkBuff.isNonlinear (skb : SkBuff) : Bool := skb.dataLen != 0

/-- `skb_header_pointer`: the bytes from the pointer on. -/
def skbHeaderPointer (skb : SkBuff) (offset : ℤ) (len : ℕ) : Option (ℕ → BitVec 8) :=
  if skb.headlen - offset ≥ len then some fun i => skb.mem (offset + i)
  else if offset > skb.len.toInt - len then none
  else some fun i =>
    if offset + i < skb.headlen then skb.mem (offset + i)
    else skb.frag (offset + i - skb.headlen).toNat

def loadPointerSlow (skb : SkBuff) (k : ℤ) : Option (ℕ → BitVec 8) :=
  let ptr :=
    if k ≥ skfNetOff then some (skb.networkHeader + k - skfNetOff)
    else if k ≥ skfLlOff then some (skb.macHeader + k - skfLlOff)
    else none
  match ptr with
  | none => none
  | some ptr =>
    if ptr ≥ skb.head ∧ ptr < skb.tail then some fun i => skb.mem (ptr + i) else none

def loadPointer (skb : SkBuff) (k : ℤ) (size : ℕ) : Option (ℕ → BitVec 8) :=
  if k ≥ 0 then skbHeaderPointer skb k size
  else if k ≥ skfAdOff then none
  else loadPointerSlow skb k

/-- The big-endian number in the first `n` bytes. -/
def beBytes (ptr : ℕ → BitVec 8) : ℕ → ℕ
  | 0 => 0
  | n + 1 => beBytes ptr n * 256 + (ptr n).toNat

def Size.bytes : Size → ℕ
  | .w => 4
  | .h => 2
  | .b => 1

section

variable (m : Machine) (mem : ℤ → BitVec 8)

/-- A `__u16` in host order. -/
def u16At (off : ℤ) : ℕ :=
  let lo := (mem off).toNat
  let hi := (mem (off + 1)).toNat
  if m.bigEndian then lo * 256 + hi else hi * 256 + lo

def nlaLen (nla : ℤ) : ℕ := u16At m mem nla

def nlaType (nla : ℤ) : ℕ := u16At m mem (nla + 2) &&& 0x3fff

def nlaAlign (len : ℕ) : ℕ := (len + 3) / 4 * 4

def nlaOk (nla remaining : ℤ) : Bool :=
  remaining ≥ 4 && 4 ≤ nlaLen m mem nla && nlaLen m mem nla ≤ remaining

/-- One pass of `nla_for_each_attr` in `nla_find`, over the attribute and the bytes remaining. -/
def nlaFindPass (attrtype : ℤ) (s : ℤ × ℤ) : Pass (ℤ × ℤ) (Option ℤ) :=
  let (nla, rem) := s
  if nlaOk m mem nla rem then
    if nlaType m mem nla = attrtype then .leave (some nla)
    else
      let totlen := nlaAlign (nlaLen m mem nla)
      .again (nla + totlen, rem - totlen)
  else .leave none

/-- `nla_find`; the outer option is empty when the loop does not end in as many passes as there are
bytes. -/
def nlaFind (head len attrtype : ℤ) : Option (Option ℤ) :=
  Pass.run (nlaFindPass m mem attrtype) (len.toNat + 1) (head, len)

def nlaFindNested (nla attrtype : ℤ) : Option (Option ℤ) :=
  nlaFind m mem (nla + 4) (nlaLen m mem nla - 4) attrtype

end

section

def bpfMemwords : ℕ := 16

def bpfMaxinsns : ℕ := 4096

structure SockFilter where
  code : BitVec 16
  jt : BitVec 8
  jf : BitVec 8
  k : BitVec 32
deriving DecidableEq

/-- The local variables of `sk_run_filter`. -/
structure RunState where
  A : BitVec 32
  X : BitVec 32
  mem : Fin bpfMemwords → BitVec 32
  pc : ℤ

/-- How a run ends: a `RET` instruction, an early `return 0`, the end of the loop, the default branch
of the switch, or one of the things that must not happen. -/
inductive Stop where
  | ret (value : BitVec 32)
  | drop
  | offEnd
  | unknownCode
  | badFetch
  | badMem
  | divZero
  | endless
deriving DecidableEq

/-- The value `sk_run_filter` returns. -/
def Stop.value : Stop → BitVec 32
  | .ret value => value
  | _ => 0

abbrev Outcome := Pass RunState Stop

variable (m : Machine) (skb : SkBuff)

/-- `continue`, after the assignments made to the state. -/
def next (s : RunState) : Outcome := .again ⟨s.A, s.X, s.mem, s.pc + 1⟩

def setA (s : RunState) (A : BitVec 32) : Outcome := next ⟨A, s.X, s.mem, s.pc⟩

def setX (s : RunState) (X : BitVec 32) : Outcome := next ⟨s.A, X, s.mem, s.pc⟩

/-- `pc += cond ? jt : jf`. -/
def branch (s : RunState) (fentry : SockFilter) (cond : Bool) : Outcome :=
  next ⟨s.A, s.X, s.mem, s.pc + if cond then fentry.jt.toNat else fentry.jf.toNat⟩

/-- An access to `mem[k]`. -/
def atMem (k : BitVec 32) (f : Fin bpfMemwords → Outcome) : Outcome :=
  if h : k.toNat < bpfMemwords then f ⟨k.toNat, h⟩ else .leave .badMem

/-- A value computed for `A`, unless the computation ends the run. -/
def putA (s : RunState) : Except Stop (BitVec 32) → Outcome
  | .ok A => setA s A
  | .error stop => .leave stop

/-- `(void *)nla - (void *)skb->data`, or 0. -/
def nlaOffset : Option (Option ℤ) → Except Stop (BitVec 32)
  | none => .error .endless
  | some none => .ok 0
  | some (some nla) => .ok (BitVec.ofInt 32 nla)

/-- `A > skb->len - sizeof(struct nlattr)`, where the difference has the width of a `size_t`. -/
def nlaBeyond (A : BitVec 32) : Bool := subMod m.long.bits skb.len.toNat 4 < A.toNat

def adNlattr (A X : BitVec 32) : Except Stop (BitVec 32) :=
  if skb.isNonlinear then .error .drop
  else if nlaBeyond m skb A then .error .drop
  else nlaOffset (nlaFind m skb.mem A.toNat (skb.len - A).toInt X.toInt)

def adNlattrNest (A X : BitVec 32) : Except Stop (BitVec 32) :=
  if skb.isNonlinear then .error .drop
  else if nlaBeyond m skb A then .error .drop
  else if (A - skb.len).toNat < nlaLen m skb.mem A.toNat then .error .drop
  else nlaOffset (nlaFindNested m skb.mem A.toNat X.toInt)

/-- A field of `skb->dev`. -/
def adDev (field : NetDevice → BitVec 32) : Except Stop (BitVec 32) :=
  match skb.dev with
  | none => .error .drop
  | some dev => .ok (field dev)

/-- The second switch, over `k - SKF_AD_OFF`. -/
def ancillary (A X : BitVec 32) (k : ℤ) : Except Stop (BitVec 32) :=
  match k - skfAdOff with
  | 0 => .ok (skb.protocol.setWidth 32)
  | 4 => .ok (skb.pktType.setWidth 32)
  | 8 => adDev skb NetDevice.ifindex
  | 20 => .ok skb.mark
  | 24 => .ok (skb.queueMapping.setWidth 32)
  | 28 => adDev skb fun dev => dev.type.setWidth 32
  | 12 => adNlattr m skb A X
  | 16 => adNlattrNest m skb A X
  | _ => .error .drop

/-- From `load_w:`, `load_h:` or `load_b:`. -/
def load (A X : BitVec 32) (size : Size) (k : BitVec 32) : Except Stop (BitVec 32) :=
  match loadPointer skb k.toInt size.bytes with
  | some ptr => .ok (BitVec.ofNat 32 (beBytes ptr size.bytes))
  | none => ancillary m skb A X k.toInt

/-- The body of the loop of `sk_run_filter`. -/
def exec (s : RunState) (fentry : SockFilter) : Outcome :=
  match decode fentry.code with
  | some (.alu .add .x) => setA s (s.A + s.X)
  | some (.alu .add .k) => setA s (s.A + fentry.k)
  | some (.alu .sub .x) => setA s (s.A - s.X)
  | some (.alu .sub .k) => setA s (s.A - fentry.k)
  | some (.alu .mul .x) => setA s (s.A * s.X)
  | some (.alu .mul .k) => setA s (s.A * fentry.k)
  | some (.alu .div .x) => if s.X = 0 then .leave .drop else setA s (s.A / s.X)
  | some (.alu .div .k) => if fentry.k = 0 then .leave .divZero else setA s (s.A / fentry.k)
  | some (.alu .and .x) => setA s (s.A &&& s.X)
  | some (.alu .and .k) => setA s (s.A &&& fentry.k)
  | some (.alu .or .x) => setA s (s.A ||| s.X)
  | some (.alu .or .k) => setA s (s.A ||| fentry.k)
  | some (.alu .lsh .x) => setA s (s.A <<< (s.X.toNat % 32))
  | some (.alu .lsh .k) => setA s (s.A <<< (fentry.k.toNat % 32))
  | some (.alu .rsh .x) => setA s (s.A >>> (s.X.toNat % 32))
  | some (.alu .rsh .k) => setA s (s.A >>> (fentry.k.toNat % 32))
  | some (.alu .neg .k) => setA s (-s.A)
  | some (.jmp .ja .k) => next ⟨s.A, s.X, s.mem, (s.pc + fentry.k.toNat).bmod (2 ^ 32)⟩
  | some (.jmp .jgt .k) => branch s fentry (fentry.k < s.A)
  | some (.jmp .jge .k) => branch s fentry (fentry.k ≤ s.A)
  | some (.jmp .jeq .k) => branch s fentry (s.A = fentry.k)
  | some (.jmp .jset .k) => branch s fentry (s.A &&& fentry.k ≠ 0)
  | some (.jmp .jgt .x) => branch s fentry (s.X < s.A)
  | some (.jmp .jge .x) => branch s fentry (s.X ≤ s.A)
  | some (.jmp .jeq .x) => branch s fentry (s.A = s.X)
  | some (.jmp .jset .x) => branch s fentry (s.A &&& s.X ≠ 0)
  | some (.ld .w .abs) => putA s <| load m skb s.A s.X .w fentry.k
  | some (.ld .h .abs) => putA s <| load m skb s.A s.X .h fentry.k
  | some (.ld .b .abs) => putA s <| load m skb s.A s.X .b fentry.k
  | some (.ld .w .len) => setA s skb.len
  | some (.ldx .w .len) => setX s skb.len
  | some (.ld .w .ind) => putA s <| load m skb s.A s.X .w (s.X + fentry.k)
  | some (.ld .h .ind) => putA s <| load m skb s.A s.X .h (s.X + fentry.k)
  | some (.ld .b .ind) => putA s <| load m skb s.A s.X .b (s.X + fentry.k)
  | some (.ldx .b .msh) =>
    match loadPointer skb fentry.k.toInt 1 with
    | some ptr => setX s (((ptr 0).setWidth 32 &&& 0xf) <<< 2)
    | none => .leave .drop
  | some (.ld .w .imm) => setA s fentry.k
  | some (.ldx .w .imm) => setX s fentry.k
  | some (.ld .w .mem) => atMem fentry.k fun k => setA s (s.mem k)
  | some (.ldx .w .mem) => atMem fentry.k fun k => setX s (s.mem k)
  | some (.misc .tax) => setX s s.A
  | some (.misc .txa) => setA s s.X
  | some (.ret .k) => .leave (.ret fentry.k)
  | some (.ret .a) => .leave (.ret s.A)
  | some .st => atMem fentry.k fun k => next ⟨s.A, s.X, Function.update s.mem k s.A, s.pc⟩
  | some .stx => atMem fentry.k fun k => next ⟨s.A, s.X, Function.update s.mem k s.X, s.pc⟩
  | _ => .leave .unknownCode

variable (filter : List SockFilter)

def fetch (pc : ℤ) : Option SockFilter := if 0 ≤ pc then filter[pc.toNat]? else none

def runPass (s : RunState) : Outcome :=
  if s.pc < filter.length then
    match fetch filter s.pc with
    | none => .leave .badFetch
    | some fentry => exec m skb s fentry
  else .leave .offEnd

/-- The state in which the loop starts, with whatever the stack holds in `mem`. -/
def runStart (mem : Fin bpfMemwords → BitVec 32) : RunState := ⟨0, 0, mem, 0⟩

/-- `sk_run_filter`, when it ends within a pass for each instruction and one for the end. -/
def skRunFilter (mem : Fin bpfMemwords → BitVec 32) : Option Stop :=
  Pass.run (runPass m skb filter) (filter.length + 1) (runStart mem)

end

/-- The switch of `sk_chk_filter`. -/
def chkInsn (flen pc : ℕ) (ftest : SockFilter) : Bool :=
  match decode ftest.code with
  | some (.alu .add .k) | some (.alu .add .x)
  | some (.alu .sub .k) | some (.alu .sub .x)
  | some (.alu .mul .k) | some (.alu .mul .x)
  | some (.alu .div .x)
  | some (.alu .and .k) | some (.alu .and .x)
  | some (.alu .or .k) | some (.alu .or .x)
  | some (.alu .lsh .k) | some (.alu .lsh .x)
  | some (.alu .rsh .k) | some (.alu .rsh .x)
  | some (.alu .neg .k)
  | some (.ld .w .abs) | some (.ld .h .abs) | some (.ld .b .abs)
  | some (.ld .w .len)
  | some (.ld .w .ind) | some (.ld .h .ind) | some (.ld .b .ind)
  | some (.ld .w .imm)
  | some (.ldx .w .len)
  | some (.ldx .b .msh)
  | some (.ldx .w .imm)
  | some (.misc .tax) | some (.misc .txa)
  | some (.ret .k) | some (.ret .a) => true
  | some (.alu .div .k) => ftest.k ≠ 0
  | some (.ld .w .mem) | some (.ldx .w .mem) | some .st | some .stx => ftest.k.toNat < bpfMemwords
  | some (.jmp .ja .k) => ftest.k.toNat < flen - pc - 1
  | some (.jmp .jeq .k) | some (.jmp .jeq .x)
  | some (.jmp .jge .k) | some (.jmp .jge .x)
  | some (.jmp .jgt .k) | some (.jmp .jgt .x)
  | some (.jmp .jset .k) | some (.jmp .jset .x) =>
    pc + ftest.jt.toNat + 1 < flen ∧ pc + ftest.jf.toNat + 1 < flen
  | _ => false

/-- The loop of `sk_chk_filter` from `pc` on. -/
def chkLoop (flen : ℕ) : ℕ → List SockFilter → Bool
  | _, [] => true
  | pc, ftest :: rest => chkInsn flen pc ftest && chkLoop flen (pc + 1) rest

def skChkFilter (filter : List SockFilter) : ℤ :=
  match filter.getLast? with
  | none => -EINVAL
  | some last =>
    if bpfMaxinsns < filter.length then -EINVAL
    else if chkLoop filter.length 0 filter = false then -EINVAL
    else if bpfClass last.code.toNat = bpfRet then 0 else -EINVAL

end LinuxKernel.Net
