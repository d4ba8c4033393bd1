import LinuxKernel.RingBuffer
import LinuxKernel.Word

/-!
# The kernel FIFO

`kernel/kfifo.c` and `include/linux/kfifo.h`. The indices are unsigned and run freely: they wrap at
`2 ^ 32` and are masked to a place of the buffer. A record is preceded by `recsize` bytes that hold
its length. The memory barriers and the copies to and from user space are left out.
-/

namespace LinuxKernel.Fifo

open RingBuffer

structure Kfifo where
  buffer : ℕ → UInt8
  size : ℕ
  in_ : ℕ
  out : ℕ

def kfifoLen (fifo : Kfifo) : ℕ := subMod 32 fifo.in_ fifo.out

def kfifoAvail (fifo : Kfifo) : ℕ := subMod 32 fifo.size (kfifoLen fifo)

def kfifoAddOut (fifo : Kfifo) (off : ℕ) : Kfifo :=
  { fifo with out := addMod 32 fifo.out off }

def kfifoAddIn (fifo : Kfifo) (off : ℕ) : Kfifo :=
  { fifo with in_ := addMod 32 fifo.in_ off }

def kfifoOff (fifo : Kfifo) (off : ℕ) : ℕ := off &&& subMod 32 fifo.size 1

def kfifoInData (fifo : Kfifo) (src : List UInt8) (off : ℕ) : Kfifo :=
  let off := kfifoOff fifo (addMod 32 fifo.in_ off)
  let l := min src.length (subMod 32 fifo.size off)
  { fifo with buffer := memcpy (memcpy fifo.buffer off (src.take l)) 0 (src.drop l) }

/-- `__kfifo_out_data`: the bytes that are written to `to`. -/
def kfifoOutData (fifo : Kfifo) (len off : ℕ) : List UInt8 :=
  let off := kfifoOff fifo (addMod 32 fifo.out off)
  let l := min len (subMod 32 fifo.size off)
  memread fifo.buffer off l ++ memread fifo.buffer 0 (len - l)

def kfifoGet (fifo : Kfifo) (off shift : ℕ) : ℕ :=
  (fifo.buffer (kfifoOff fifo (addMod 32 fifo.out off))).toNat <<< shift

def kfifoPeekN (fifo : Kfifo) (recsize : ℕ) : ℕ :=
  let l := kfifoGet fifo 0 0
  if subMod 32 recsize 1 ≠ 0 then l ||| kfifoGet fifo 1 8 else l

def kfifoPut (fifo : Kfifo) (off val shift : ℕ) : Kfifo :=
  let place := kfifoOff fifo (addMod 32 fifo.in_ off)
  { fifo with buffer := Function.update fifo.buffer place (UInt8.ofNat (val >>> shift)) }

def kfifoPokeN (fifo : Kfifo) (recsize n : ℕ) : Kfifo :=
  let fifo := kfifoPut fifo 0 n 0
  if subMod 32 recsize 1 ≠ 0 then kfifoPut fifo 1 n 8 else fifo

/-- What a call returns: its value, the bytes it wrote to the buffer of the caller, and `*total`
where the call sets it. -/
structure Reply where
  ret : ℕ
  bytes : List UInt8
  total : Option ℕ
deriving DecidableEq

def kfifoInN (fifo : Kfifo) (src : List UInt8) (recsize : ℕ) : Kfifo × ℕ :=
  if kfifoAvail fifo < addMod 32 src.length recsize then (fifo, addMod 32 src.length 1)
  else (kfifoInData fifo src recsize, 0)

def kfifoIn (fifo : Kfifo) (src : List UInt8) : Kfifo × Reply :=
  let len := min (kfifoAvail fifo) src.length
  (kfifoAddIn (kfifoInData fifo (src.take len) 0) len, ⟨len, [], none⟩)

def kfifoInRec (fifo : Kfifo) (src : List UInt8) (recsize : ℕ) : Kfifo × Reply :=
  let r := kfifoInN fifo src recsize
  if r.2 = 0 then
    (kfifoAddIn (if recsize ≠ 0 then kfifoPokeN r.1 recsize src.length else r.1)
      (addMod 32 src.length recsize), ⟨r.2, [], none⟩)
  else (r.1, ⟨r.2, [], none⟩)

def kfifoOutN (fifo : Kfifo) (len recsize : ℕ) : Kfifo × ℕ × List UInt8 :=
  if kfifoLen fifo < addMod 32 len recsize then (fifo, len, [])
  else (kfifoAddOut fifo (addMod 32 len recsize), 0, kfifoOutData fifo len recsize)

def kfifoOut (fifo : Kfifo) (len : ℕ) : Kfifo × Reply :=
  let len := min (kfifoLen fifo) len
  (kfifoAddOut fifo len, ⟨len, kfifoOutData fifo len 0, none⟩)

def kfifoOutPeek (fifo : Kfifo) (len offset : ℕ) : Kfifo × Reply :=
  let len := min (kfifoLen fifo) (addMod 32 len offset)
  (fifo, ⟨len, kfifoOutData fifo len offset, none⟩)

def kfifoOutRec (fifo : Kfifo) (n recsize : ℕ) : Kfifo × Reply :=
  if recsize = 0 then
    let r := kfifoOutN fifo n recsize
    (r.1, ⟨r.2.1, r.2.2, some n⟩)
  else
    let l := kfifoPeekN fifo recsize
    if n < l then (fifo, ⟨l, [], some l⟩)
    else
      let r := kfifoOutN fifo l recsize
      (r.1, ⟨r.2.1, r.2.2, some l⟩)

inductive Call where
  | in_ (src : List UInt8)
  | out (len : ℕ)
  | inRec (src : List UInt8)
  | outRec (n : ℕ)

def Call.exec (recsize : ℕ) (fifo : Kfifo) : Call → Kfifo × Reply
  | .in_ src => kfifoIn fifo src
  | .out len => kfifoOut fifo len
  | .inRec src => kfifoInRec fifo src recsize
  | .outRec n => kfifoOutRec fifo n recsize

def run (recsize : ℕ) : Kfifo → List Call → Kfifo × List Reply
  | fifo, [] => (fifo, [])
  | fifo, c :: cs =>
    let r := c.exec recsize fifo
    ((run recsize r.1 cs).1, r.2 :: (run recsize r.1 cs).2)

end LinuxKernel.Fifo
