import LinuxKernel.Bitmap

/-!
# `net/ipv4/ip_fragment.c`: queueing fragments

A fragment in the queue is its offset and its bytes (`FRAG_CB(skb)->offset` and the data of the
skb). What can fail or is decided elsewhere is an argument of each call: the `pskb_pull`s, the
trimming, `ip_frag_too_far` as far as it looks at the peer, and the timer. The sizes of a datagram
fit an `int`. The device, the time stamp and the memory accounting are left out.

`ip_frag_reasm` kills the queue before it looks at it, so the queue at its entry is the one returned
with `reasm`.
-/

namespace LinuxKernel.IpFragment

open Lib (EINVAL)

def ENOENT : ℤ := 2

def E2BIG : ℤ := 7

def ENOMEM : ℤ := 12

def ETIMEDOUT : ℤ := 110

variable {β : Type*}

structure Frag (β : Type*) where
  offset : ℕ
  data : List β

def Frag.len (f : Frag β) : ℕ := f.data.length

/-- `struct ipq`: the three flags are the bits of `last_in`. -/
structure Ipq (β : Type*) where
  fragments : List (Frag β)
  firstIn : Bool
  lastIn : Bool
  complete : Bool
  len : ℕ
  meat : ℤ

/-- A received skb: `frag_off & IP_OFFSET`, the flag `IP_MF`, the bytes after the header, and
whether `IPSKB_FRAG_COMPLETE` is set. -/
structure Skb (β : Type*) where
  fragOff : ℕ
  mf : Bool
  payload : List β
  fragComplete : Bool

/-- What a call meets: whether the peer's counter is too far, whether the timer was still pending,
and which of the skb operations succeed. -/
structure Env where
  tooFar : Bool
  timerPending : Bool
  pullHeader : Bool
  trimErr : ℤ
  pullHead : Bool
  pullNext : Bool

inductive QueueResult where
  | err (code : ℤ)
  | inProgress
  | reasm
deriving DecidableEq

/-- `ip_frag_reinit`: an error, or the queue without its fragments. -/
def ipFragReinit (env : Env) : Except ℤ (Ipq β) :=
  if ¬ env.timerPending then .error (-ETIMEDOUT)
  else .ok ⟨[], false, false, false, 0, 0⟩

/-- "Is this the final fragment?": the end of the fragment and the queue, or an error. -/
def checkEnd (qp : Ipq β) (mf : Bool) (fin : ℕ) : Except Unit (ℕ × Ipq β) :=
  if ¬ mf then
    if fin < qp.len ∨ (qp.lastIn ∧ fin ≠ qp.len) then .error ()
    else .ok (fin, { qp with lastIn := true, len := fin })
  else
    let fin := fin / 8 * 8
    if qp.len < fin then
      if qp.lastIn then .error () else .ok (fin, { qp with len := fin })
    else .ok (fin, qp)

/-- The loop `while (next && FRAG_CB(next)->offset < end)`: the fragments from `next` on, `q.meat`,
and whether it went through. -/
def eatNext (env : Env) (fin : ℕ) : List (Frag β) → ℤ → (List (Frag β) × ℤ) × Bool
  | [], meat => (([], meat), true)
  | next :: rest, meat =>
    if next.offset < fin then
      let i := fin - next.offset
      if i < next.len then
        if env.pullNext then ((⟨next.offset + i, next.data.drop i⟩ :: rest, meat - i), true)
        else ((next :: rest, meat), false)
      else eatNext env fin rest (meat - next.len)
    else ((next :: rest, meat), true)

/-- The fragment `data` up to `fin` is put between `before` and `next`. -/
def insertFrag (env : Env) (qp : Ipq β) (before next : List (Frag β)) (offset fin : ℕ)
    (data : List β) : Ipq β × QueueResult :=
  let r := eatNext env fin next qp.meat
  let qp := { qp with fragments := before ++ r.1.1, meat := r.1.2 }
  if ¬ r.2 then (qp, .err (-ENOMEM))
  else
    let qp := { qp with
      fragments := before ++ ⟨offset, data⟩ :: r.1.1
      meat := r.1.2 + data.length
      firstIn := qp.firstIn || decide (offset = 0) }
    if qp.firstIn ∧ qp.lastIn ∧ ¬ qp.complete ∧ qp.meat = qp.len then
      ({ qp with complete := true }, .reasm)
    else (qp, .inProgress)

/-- "Find out which fragments are in front and at the back of us", and what overlaps the one in
front. -/
def placeFrag (env : Env) (qp : Ipq β) (offset fin : ℕ) (data : List β) : Ipq β × QueueResult :=
  let before := qp.fragments.takeWhile fun f => f.offset < offset
  let next := qp.fragments.dropWhile fun f => f.offset < offset
  match before.getLast? with
  | none => insertFrag env qp before next offset fin data
  | some prev =>
    if offset < prev.offset + prev.len then
      let i := prev.offset + prev.len - offset
      if fin ≤ offset + i then (qp, .err (-EINVAL))
      else if ¬ env.pullHead then (qp, .err (-ENOMEM))
      else insertFrag env qp before next (offset + i) fin (data.drop i)
    else insertFrag env qp before next offset fin data

/-- `ip_frag_queue` from the place of the fragment on. -/
def queueFrag (env : Env) (qp : Ipq β) (skb : Skb β) : Ipq β × QueueResult :=
  let offset := skb.fragOff * 8
  match checkEnd qp skb.mf (offset + skb.payload.length) with
  | .error _ => (qp, .err (-EINVAL))
  | .ok (fin, qp) =>
    if fin = offset then (qp, .err (-EINVAL))
    else if ¬ env.pullHeader then (qp, .err (-ENOMEM))
    else if env.trimErr ≠ 0 then (qp, .err env.trimErr)
    else placeFrag env qp offset fin (skb.payload.take (fin - offset))

def ipFragQueue (env : Env) (qp : Ipq β) (skb : Skb β) : Ipq β × QueueResult :=
  if qp.complete then (qp, .err (-ENOENT))
  else if ¬ skb.fragComplete ∧ env.tooFar ∧ qp.fragments ≠ [] then
    match ipFragReinit env with
    | .error err => ({ qp with complete := true }, .err err)
    | .ok qp => queueFrag env qp skb
  else queueFrag env qp skb

/-- `ip_frag_reasm`: `tot_len` and the data. Whether the `skb_clone` of the fragment just received and
the allocations for the first one go through are arguments. -/
def ipFragReasm (clone expand : Bool) (ihlen : ℕ) (qp : Ipq β) : Except ℤ (ℕ × List β) :=
  if ¬ clone then .error (-ENOMEM)
  else if ihlen + qp.len > 65535 then .error (-E2BIG)
  else if ¬ expand then .error (-ENOMEM)
  else .ok (ihlen + qp.len, qp.fragments.flatMap Frag.data)

def ipqInit : Ipq β := ⟨[], false, false, false, 0, 0⟩

inductive Reach : Ipq β → List (Skb β) → Prop
  | init : Reach ipqInit []
  | queue {qp : Ipq β} {received : List (Skb β)} (env : Env) (skb : Skb β) : Reach qp received →
      Reach (ipFragQueue env qp skb).1 (skb :: received)

end LinuxKernel.IpFragment
