import Mathlib.Data.Int.Basic
import Mathlib.Data.List.Basic
import Mathlib.Logic.Function.Basic

/-!
# Packet filter tables

`translate_table` with `check_entry_size_and_hooks`, `check_underflow` and `mark_source_chains`, and
`ipt_do_table`, of `net/ipv4/netfilter/ip_tables.c`. A table is the list of its entries; an entry
stands at the sum of the `next_offset`s before it, and a read at another offset is a fault. The
matches, the target functions and `find_check_entry` are parameters.
-/

namespace LinuxKernel.Netfilter

def NF_INET_NUMHOOKS : ℕ := 5

def NF_DROP : ℕ := 0

def NF_ACCEPT : ℕ := 1

def NF_MAX_VERDICT : ℤ := 5

/-- `-NF_REPEAT - 1`. -/
def IPT_RETURN : ℤ := -5

def sizeofEntry : ℕ := 112

def sizeofTarget : ℕ := 32

section

/-- `struct ipt_ip`; an interface name is its 16 bytes. -/
structure IptIp where
  src : BitVec 32
  dst : BitVec 32
  smsk : BitVec 32
  dmsk : BitVec 32
  iniface : BitVec 128
  outiface : BitVec 128
  inifaceMask : BitVec 128
  outifaceMask : BitVec 128
  proto : BitVec 16
  flags : BitVec 8
  invflags : BitVec 8
  deriving DecidableEq

/-- The packet's header, devices and whether it is a later fragment. -/
structure Packet where
  saddr : BitVec 32
  daddr : BitVec 32
  protocol : BitVec 16
  indev : BitVec 128
  outdev : BitVec 128
  isfrag : Bool

def uncond : IptIp := ⟨0, 0, 0, 0, 0, 0, 0, 0, 0, 0, 0⟩

def unconditional (ip : IptIp) : Bool := ip = uncond

def fwinv (ipinfo : IptIp) (b : Bool) (invflg : BitVec 8) : Bool :=
  b ^^ (ipinfo.invflags &&& invflg != 0)

def ipPacketMatch (ip : Packet) (ipinfo : IptIp) : Bool :=
  if fwinv ipinfo (ip.saddr &&& ipinfo.smsk != ipinfo.src) 0x08
      || fwinv ipinfo (ip.daddr &&& ipinfo.dmsk != ipinfo.dst) 0x10 then false
  else if fwinv ipinfo ((ip.indev ^^^ ipinfo.iniface) &&& ipinfo.inifaceMask != 0) 0x01 then false
  else if fwinv ipinfo
      ((ip.outdev ^^^ ipinfo.outiface) &&& ipinfo.outifaceMask != 0) 0x02 then false
  else if ipinfo.proto != 0 && fwinv ipinfo (ip.protocol != ipinfo.proto) 0x40 then false
  else if fwinv ipinfo (ipinfo.flags &&& 0x01 != 0 && !ip.isfrag) 0x20 then false
  else true

/-- The standard target has no function; the error target's function drops the packet. -/
inductive Target (τ : Type*)
  | standard (verdict : ℤ)
  | error
  | function (data : τ)

structure Entry (μ τ : Type*) where
  ip : IptIp
  ematches : List μ
  target : Target τ
  nextOffset : ℕ

variable {μ τ : Type*}

def Entry.isGoto (e : Entry μ τ) : Bool := e.ip.flags &&& 0x02 != 0

/-- The entry at an offset. -/
def getEntry : List (Entry μ τ) → ℕ → Option (Entry μ τ)
  | [], _ => none
  | e :: es, offset =>
    if offset = 0 then some e
    else if offset < e.nextOffset then none
    else getEntry es (offset - e.nextOffset)

/-- `struct xt_table_info`; a hook that is not assigned has no entry. -/
structure TableInfo (μ τ : Type*) where
  entries : List (Entry μ τ)
  size : ℕ
  hookEntry : ℕ → Option ℕ
  underflow : ℕ → Option ℕ
  stacksize : ℕ

/-- The `comefrom` bits and the packet counters, by the entries' offsets. -/
structure Marks where
  comefrom : ℕ → ℕ → Bool
  pcnt : ℕ → ℕ

def Marks.setPcnt (m : Marks) (pos back : ℕ) : Marks :=
  { m with pcnt := Function.update m.pcnt pos back }

/-- `e->comefrom |= ((1 << hook) | (1 << NF_INET_NUMHOOKS))`. -/
def Marks.visit (m : Marks) (pos hook : ℕ) : Marks :=
  { m with comefrom := Function.update m.comefrom pos fun bit =>
      m.comefrom pos bit || bit == hook || bit == NF_INET_NUMHOOKS }

/-- `e->comefrom ^= (1 << NF_INET_NUMHOOKS)`. -/
def Marks.leave (m : Marks) (pos : ℕ) : Marks :=
  { m with comefrom := Function.update m.comefrom pos fun bit =>
      if bit = NF_INET_NUMHOOKS then !m.comefrom pos bit else m.comefrom pos bit }

/-- An unconditional return or end of a chain. -/
def isEnd (e : Entry μ τ) : Bool :=
  match e.target with
  | .standard verdict => e.ematches.isEmpty && verdict < 0 && unconditional e.ip
  | _ => false

def badVerdict (e : Entry μ τ) : Bool :=
  match e.target with
  | .standard verdict => verdict < -NF_MAX_VERDICT - 1
  | _ => false

/-- The jump of an entry: its verdict, if that is not negative. -/
def jump (e : Entry μ τ) : Option ℕ :=
  match e.target with
  | .standard verdict => if 0 ≤ verdict then some verdict.toNat else none
  | _ => none

/-- Where backtracking ends: at the start, or at the entry behind a jump. -/
inductive Back
  | start (m : Marks)
  | moved (pos : ℕ) (m : Marks)
  | stuck

def backtrack (entries : List (Entry μ τ)) : ℕ → ℕ → Marks → Back
  | 0, _, _ => .stuck
  | fuel + 1, oldpos, m =>
    let m := m.leave oldpos
    let pos := m.pcnt oldpos
    let m := m.setPcnt oldpos 0
    if pos = oldpos then .start m
    else
      match getEntry entries pos with
      | none => .stuck
      | some e =>
        if oldpos = pos + e.nextOffset then backtrack entries fuel pos m
        else .moved (pos + e.nextOffset) (m.setPcnt (pos + e.nextOffset) pos)

/-- The search from one hook; `none` where the table is rejected. -/
def markLoop (info : TableInfo μ τ) (hook : ℕ) : ℕ → ℕ → Marks → Option Marks
  | 0, _, _ => none
  | fuel + 1, pos, m =>
    match getEntry info.entries pos with
    | none => none
    | some e =>
      let visited := m.comefrom pos hook
      if m.comefrom pos NF_INET_NUMHOOKS then none
      else
        let m := m.visit pos hook
        if isEnd e || visited then
          if badVerdict e then none
          else
            match backtrack info.entries fuel pos m with
            | .start m => some m
            | .moved pos m => markLoop info hook fuel pos m
            | .stuck => none
        else
          match jump e with
          | some newpos =>
            if newpos > info.size - sizeofEntry then none
            else markLoop info hook fuel newpos (m.setPcnt newpos pos)
          | none => markLoop info hook fuel (pos + e.nextOffset)
              (m.setPcnt (pos + e.nextOffset) pos)

/-- The loop over the hooks of `mark_source_chains`. -/
def markHooks (info : TableInfo μ τ) (validHooks : ℕ → Bool) (fuel : ℕ) : List ℕ → Marks →
    Option Marks
  | [], m => some m
  | hook :: hooks, m =>
    if !validHooks hook then markHooks info validHooks fuel hooks m
    else
      match info.hookEntry hook with
      | none => none
      | some pos =>
        match markLoop info hook fuel pos (m.setPcnt pos pos) with
        | none => none
        | some m => markHooks info validHooks fuel hooks m

def hooks : List ℕ := List.range NF_INET_NUMHOOKS

/-- `mark_source_chains`, on entries whose counters and `comefrom` are clear. -/
def markSourceChains (info : TableInfo μ τ) (validHooks : ℕ → Bool) (fuel : ℕ) : Bool :=
  (markHooks info validHooks fuel hooks ⟨fun _ _ => false, fun _ => 0⟩).isSome

structure Replace (μ τ : Type*) where
  entries : List (Entry μ τ)
  size : ℕ
  numEntries : ℕ
  validHooks : ℕ → Bool
  hookEntry : ℕ → ℕ
  underflow : ℕ → ℕ

def checkUnderflow (e : Entry μ τ) : Bool :=
  if !unconditional e.ip then false
  else
    match e.target with
    | .standard verdict => -verdict - 1 = NF_DROP || -verdict - 1 = NF_ACCEPT
    | _ => false

def isError (e : Entry μ τ) : Bool :=
  match e.target with
  | .error => true
  | _ => false

/-- The walk over the entries of `translate_table`, with `check_entry_size_and_hooks`. -/
def checkEntries (repl : Replace μ τ) : ℕ → List (Entry μ τ) → TableInfo μ τ →
    Option (TableInfo μ τ)
  | offset, [], info => if offset < repl.size then none else some info
  | offset, e :: es, info =>
    if offset % 8 ≠ 0 ∨ offset + sizeofEntry ≥ repl.size then none
    else if e.nextOffset < sizeofEntry + sizeofTarget then none
    else if hooks.any fun h =>
        repl.validHooks h && offset == repl.underflow h && !checkUnderflow e then none
    else
      checkEntries repl (offset + e.nextOffset) es { info with
        hookEntry := fun h =>
          if repl.validHooks h && offset == repl.hookEntry h then some offset else info.hookEntry h
        underflow := fun h =>
          if repl.validHooks h && offset == repl.underflow h then some offset else info.underflow h
        stacksize := if isError e then info.stacksize + 1 else info.stacksize }

/-- The table of a request that is accepted. -/
def translateTable (findCheckEntry : Entry μ τ → Bool) (fuel : ℕ) (repl : Replace μ τ) :
    Option (TableInfo μ τ) :=
  match checkEntries repl 0 repl.entries
      ⟨repl.entries, repl.size, fun _ => none, fun _ => none, 0⟩ with
  | none => none
  | some info =>
    if repl.entries.length ≠ repl.numEntries then none
    else if hooks.any fun h =>
        repl.validHooks h && ((info.hookEntry h).isNone || (info.underflow h).isNone) then none
    else if !markSourceChains info repl.validHooks fuel then none
    else if !repl.entries.all findCheckEntry then none
    else some info

/-- A packet with the results of the matches on it, and of the targets in each iteration: no verdict
is `IPT_CONTINUE`. The second component of a result is whether the function sets `hotdrop`. -/
structure Env (μ τ : Type*) where
  packet : Packet
  matchFn : μ → Bool × Bool
  targetFn : ℕ → τ → Option ℕ × Bool

structure State where
  pos : ℕ
  jumpstack : List ℕ
  hotdrop : Bool
  iteration : ℕ

inductive Step
  | stop (verdict : ℕ) (hotdrop : Bool)
  | next (s : State)
  | fault

/-- The matches of an entry up to the first that fails. -/
def runMatches (env : Env μ τ) : List μ → Bool → Bool × Bool
  | [], hotdrop => (true, hotdrop)
  | ematch :: ematches, hotdrop =>
    let hotdrop := hotdrop || (env.matchFn ematch).2
    if (env.matchFn ematch).1 then runMatches env ematches hotdrop else (false, hotdrop)

/-- What `ipt_do_table` does with an entry that matches. -/
def runTarget (info : TableInfo μ τ) (env : Env μ τ) (hook : ℕ) (e : Entry μ τ) (s : State) :
    Step :=
  match e.target with
  | .standard v =>
    if v < 0 then
      if v ≠ IPT_RETURN then .stop ((-v).toNat - 1) s.hotdrop
      else
        match s.jumpstack with
        | [] =>
          match info.underflow hook with
          | none => .fault
          | some pos => .next { s with pos := pos }
        | back :: jumpstack =>
          match getEntry info.entries back with
          | none => .fault
          | some e => .next { s with pos := back + e.nextOffset, jumpstack := jumpstack }
    else if v.toNat ≠ s.pos + e.nextOffset ∧ e.isGoto = false then
      if s.jumpstack.length ≥ info.stacksize then .stop NF_DROP s.hotdrop
      else .next { s with pos := v.toNat, jumpstack := s.pos :: s.jumpstack }
    else .next { s with pos := v.toNat }
  | .error => .stop NF_DROP s.hotdrop
  | .function data =>
    let result := env.targetFn s.iteration data
    match result.1 with
    | none => .next { s with pos := s.pos + e.nextOffset, hotdrop := s.hotdrop || result.2 }
    | some verdict => .stop verdict (s.hotdrop || result.2)

/-- One iteration of the loop of `ipt_do_table`. -/
def iptStep (info : TableInfo μ τ) (env : Env μ τ) (hook : ℕ) (s : State) : Step :=
  let s := { s with iteration := s.iteration + 1 }
  match getEntry info.entries s.pos with
  | none => .fault
  | some e =>
    if !ipPacketMatch env.packet e.ip then .next { s with pos := s.pos + e.nextOffset }
    else
      let matched := runMatches env e.ematches s.hotdrop
      let s := { s with hotdrop := matched.2 }
      if !matched.1 then .next { s with pos := s.pos + e.nextOffset }
      else runTarget info env hook e s

/-- The loop of `ipt_do_table`: no result without enough fuel; a fault has no verdict. -/
def iptLoop (info : TableInfo μ τ) (env : Env μ τ) (hook : ℕ) : ℕ → State → Option (Option ℕ)
  | 0, _ => none
  | fuel + 1, s =>
    match iptStep info env hook s with
    | .fault => some none
    | .stop verdict hotdrop => some (some (if hotdrop then NF_DROP else verdict))
    | .next s => if s.hotdrop then some (some NF_DROP) else iptLoop info env hook fuel s

/-- `ipt_do_table`, with an empty jump stack. -/
def iptDoTable (info : TableInfo μ τ) (env : Env μ τ) (hook fuel : ℕ) : Option (Option ℕ) :=
  match info.hookEntry hook with
  | none => some none
  | some pos => iptLoop info env hook fuel ⟨pos, [], false, 0⟩

end

end LinuxKernel.Netfilter
