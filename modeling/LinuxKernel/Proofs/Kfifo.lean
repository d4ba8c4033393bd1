import LinuxKernel.Kfifo

/-!
# The kernel FIFO is a queue

The contents are the bytes between the two indices, seen from `out` around the end of the buffer;
the size divides `2 ^ 32`, so the indices may wrap. With a record field they are the records with
their lengths before them. `kfifo_in_rec` without a record field moves `in` though it fails for the
greatest length, and `kfifo_out_rec` on an empty FIFO reads a length that is not there.
-/

namespace LinuxKernel.Fifo

open RingBuffer List

/-- The size is a power of two, and no more than that many bytes are in the FIFO. -/
structure Valid (fifo : Kfifo) : Prop where
  size_eq : ∃ k ≤ 31, fifo.size = 2 ^ k
  in_lt : fifo.in_ < 2 ^ 32
  out_lt : fifo.out < 2 ^ 32
  len_le : kfifoLen fifo ≤ fifo.size

/-- The bytes in the FIFO, the oldest first. -/
def contents (fifo : Kfifo) : List UInt8 :=
  memread (view fifo.buffer fifo.size fifo.out) 0 (kfifoLen fifo)

def recordField (recsize n : ℕ) : List UInt8 :=
  (List.range recsize).map fun i => UInt8.ofNat (n >>> (8 * i))

def fieldValue : List UInt8 → ℕ
  | [] => 0
  | b :: bs => b.toNat + 256 * fieldValue bs

def Call.onQueue (recsize size : ℕ) (q : List UInt8) : Call → List UInt8 × Reply
  | .in_ src => (q ++ src.take (size - q.length), ⟨min (size - q.length) src.length, [], none⟩)
  | .out len => (q.drop len, ⟨min q.length len, q.take len, none⟩)
  | .inRec src =>
    if q.length + recsize + src.length ≤ size then
      (q ++ recordField recsize src.length ++ src, ⟨0, [], none⟩)
    else (q, ⟨src.length + 1, [], none⟩)
  | .outRec n =>
    let l := if recsize = 0 then n else fieldValue (q.take recsize)
    if n < l ∨ q.length < recsize + l then (q, ⟨l, [], some l⟩)
    else (q.drop (recsize + l), ⟨0, (q.drop recsize).take l, some l⟩)

def runQueue (recsize size : ℕ) : List UInt8 → List Call → List UInt8 × List Reply
  | q, [] => (q, [])
  | q, c :: cs =>
    let r := c.onQueue recsize size q
    ((runQueue recsize size r.1 cs).1, r.2 :: (runQueue recsize size r.1 cs).2)

def encode (recsize : ℕ) (rs : List (List UInt8)) : List UInt8 :=
  rs.flatMap fun r => recordField recsize r.length ++ r

/-- What a call for records does to a queue of records. -/
inductive RecordStep (recsize size : ℕ) :
    List (List UInt8) → Call → Reply → List (List UInt8) → Prop
  | put {rs src} : (encode recsize rs).length + recsize + src.length ≤ size →
      RecordStep recsize size rs (.inRec src) ⟨0, [], none⟩ (rs ++ [src])
  | full {rs src ret} : size < (encode recsize rs).length + recsize + src.length → ret ≠ 0 →
      RecordStep recsize size rs (.inRec src) ⟨ret, [], none⟩ rs
  | take {r rs n} : r.length ≤ n →
      RecordStep recsize size (r :: rs) (.outRec n) ⟨0, r, some r.length⟩ rs
  | tooLong {r rs n} : n < r.length →
      RecordStep recsize size (r :: rs) (.outRec n) ⟨r.length, [], some r.length⟩ (r :: rs)
  | empty {n ret total} : ret ≠ 0 → RecordStep recsize size [] (.outRec n) ⟨ret, [], total⟩ []

inductive RecordRun (recsize size : ℕ) :
    List (List UInt8) → List Call → List Reply → List (List UInt8) → Prop
  | nil {rs} : RecordRun recsize size rs [] [] rs
  | cons {rs rs' rs'' c cs reply replies} : RecordStep recsize size rs c reply rs' →
      RecordRun recsize size rs' cs replies rs'' →
      RecordRun recsize size rs (c :: cs) (reply :: replies) rs''

def Call.LengthOk (recsize : ℕ) : Call → Prop
  | .in_ src => src.length < 2 ^ 32
  | .out len => len < 2 ^ 32
  | .inRec src => src.length < 2 ^ 32 ∧ (recsize ≠ 0 → src.length < 256 ^ recsize)
  | .outRec n => n < 2 ^ 32

/-- The length plus one does not wrap, and a record is taken only where a record field is. -/
def Call.Sound (recsize : ℕ) (fifo : Kfifo) : Call → Prop
  | .inRec src => src.length + 1 < 2 ^ 32
  | .outRec _ => recsize ≤ kfifoLen fifo
  | _ => True

def Call.IsRecord : Call → Prop
  | .inRec _ => True
  | .outRec _ => True
  | _ => False

/-- Every call of the run is sound where it is made. -/
def SoundRun (recsize : ℕ) : Kfifo → List Call → Prop
  | _, [] => True
  | fifo, c :: cs => c.Sound recsize fifo ∧ SoundRun recsize (c.exec recsize fifo).1 cs

variable {recsize a b n off : ℕ} {fifo fifo' fifo'' : Kfifo} {src src' : List UInt8}
  {rs : List (List UInt8)} {c : Call}

lemma subMod_addMod_left (ha : a < 2 ^ 32) (hb : b < 2 ^ 32) (h : subMod 32 a b + n < 2 ^ 32) :
    subMod 32 (addMod 32 a n) b = subMod 32 a b + n := by
  unfold subMod addMod at *
  omega

lemma subMod_addMod_right (ha : a < 2 ^ 32) (hb : b < 2 ^ 32) (h : n ≤ subMod 32 a b) :
    subMod 32 a (addMod 32 b n) = subMod 32 a b - n := by
  unfold subMod addMod at *
  omega

lemma length_recordField (recsize n : ℕ) : (recordField recsize n).length = recsize := by
  simp [recordField]

lemma fieldValue_lt : ∀ bs : List UInt8, fieldValue bs < 256 ^ bs.length
  | [] => by simp [fieldValue]
  | b :: bs => by
    have hb := b.toNat_lt
    have ih := fieldValue_lt bs
    rw [fieldValue, length_cons, Nat.pow_succ]
    omega

lemma fieldValue_recordField (hr : recsize ≤ 2) (hn : n < 256 ^ recsize) :
    fieldValue (recordField recsize n) = n := by
  have hbyte (x : ℕ) : (UInt8.ofNat x).toNat = x % 256 := UInt8.toNat_ofNat'
  obtain rfl | rfl | rfl : recsize = 0 ∨ recsize = 1 ∨ recsize = 2 := by omega
  · rw [Nat.pow_zero] at hn
    exact (Nat.lt_one_iff.mp hn).symm
  · show (UInt8.ofNat (n >>> 0)).toNat + 256 * 0 = n
    rw [hbyte, Nat.shiftRight_zero]
    omega
  · show (UInt8.ofNat (n >>> 0)).toNat + 256 * ((UInt8.ofNat (n >>> 8)).toNat + 256 * 0) = n
    rw [hbyte, hbyte, Nat.shiftRight_zero, Nat.shiftRight_eq_div_pow]
    omega

section

variable {fifo : Kfifo}

section

variable (h : Valid fifo)

include h

lemma Valid.size_dvd : fifo.size ∣ 2 ^ 32 := by
  obtain ⟨k, hk, hsize⟩ := h.size_eq
  rw [hsize]
  exact pow_dvd_pow 2 (by omega)

lemma Valid.size_bounds : 0 < fifo.size ∧ fifo.size ≤ 2 ^ 31 := by
  obtain ⟨k, hk, hsize⟩ := h.size_eq
  rw [hsize]
  exact ⟨Nat.two_pow_pos k, Nat.pow_le_pow_right (by omega) hk⟩

lemma Valid.kfifoOff_eq (a off : ℕ) :
    kfifoOff fifo (addMod 32 a off) = (a + off) % fifo.size := by
  have hdvd := h.size_dvd
  obtain ⟨hpos, hle⟩ := h.size_bounds
  obtain ⟨k, hk, hsize⟩ := h.size_eq
  rw [kfifoOff, subMod_of_le (by omega) (by omega), hsize, Nat.and_two_pow_sub_one_eq_mod, addMod,
    ← hsize, Nat.mod_mod_of_dvd _ hdvd]

lemma Valid.subMod_size (ha : a ≤ fifo.size) :
    subMod 32 fifo.size a = fifo.size - a := by
  obtain ⟨-, hle⟩ := h.size_bounds
  exact subMod_of_le ha (by omega)

lemma Valid.kfifoAvail_eq : kfifoAvail fifo = fifo.size - kfifoLen fifo :=
  h.subMod_size h.len_le

lemma Valid.in_mod (off : ℕ) :
    (fifo.in_ + off) % fifo.size = (fifo.out + (kfifoLen fifo + off)) % fifo.size := by
  have hout := h.out_lt
  have heq : (fifo.out + (kfifoLen fifo + off)) % 2 ^ 32 = (fifo.in_ + off) % 2 ^ 32 := by
    rw [kfifoLen, subMod]
    omega
  rw [← Nat.mod_mod_of_dvd (fifo.in_ + off) h.size_dvd, ← heq, Nat.mod_mod_of_dvd _ h.size_dvd]

end

@[simp] lemma length_contents : (contents fifo).length = kfifoLen fifo := length_memread _ _

end

/-- `fifo'` has the bytes `src` at `off` bytes after the contents, and is `fifo` elsewhere. -/
structure Wrote (fifo fifo' : Kfifo) (off : ℕ) (src : List UInt8) : Prop where
  size_eq : fifo'.size = fifo.size
  in_eq : fifo'.in_ = fifo.in_
  out_eq : fifo'.out = fifo.out
  view_eq : ∀ i < fifo.size, view fifo'.buffer fifo.size fifo.out i
    = if i < kfifoLen fifo + off then view fifo.buffer fifo.size fifo.out i
      else (src[i - (kfifoLen fifo + off)]?).getD (view fifo.buffer fifo.size fifo.out i)

lemma Wrote.len_eq (h : Wrote fifo fifo' off src) : kfifoLen fifo' = kfifoLen fifo := by
  rw [kfifoLen, kfifoLen, h.in_eq, h.out_eq]

lemma Wrote.valid (h : Wrote fifo fifo' off src) (hv : Valid fifo) : Valid fifo' where
  size_eq := h.size_eq ▸ hv.size_eq
  in_lt := h.in_eq ▸ hv.in_lt
  out_lt := h.out_eq ▸ hv.out_lt
  len_le := by
    rw [h.len_eq, h.size_eq]
    exact hv.len_le

lemma Valid.wrote (hv : Valid fifo) {buffer' : ℕ → UInt8}
    (hw : ∀ j < fifo.size, view buffer' fifo.size ((fifo.in_ + off) % fifo.size) j
      = (src[j]?).getD (view fifo.buffer fifo.size ((fifo.in_ + off) % fifo.size) j))
    (hfit : kfifoLen fifo + off + src.length ≤ fifo.size) :
    Wrote fifo { fifo with buffer := buffer' } off src where
  size_eq := rfl
  in_eq := rfl
  out_eq := rfl
  view_eq := fun i hi => by
    refine view_write (fun j hj => ?_) hfit hi
    have h := hw j hj
    rw [hv.in_mod, view_mod, view_mod] at h
    exact h

lemma Valid.wrote_kfifoInData (hv : Valid fifo)
    (hfit : kfifoLen fifo + off + src.length ≤ fifo.size) :
    Wrote fifo (kfifoInData fifo src off) off src := by
  have hstart : (fifo.in_ + off) % fifo.size < fifo.size := Nat.mod_lt _ hv.size_bounds.1
  refine hv.wrote (fun j hj => ?_) hfit
  rw [hv.kfifoOff_eq, hv.subMod_size hstart.le]
  exact view_memcpy_wrap hstart (by omega) hj

lemma Valid.wrote_kfifoPut (hv : Valid fifo) {val shift : ℕ}
    (hfit : kfifoLen fifo + off + 1 ≤ fifo.size) :
    Wrote fifo (kfifoPut fifo off val shift) off [UInt8.ofNat (val >>> shift)] := by
  refine hv.wrote (fun j hj => ?_) hfit
  rw [hv.kfifoOff_eq, view_mod, view_mod]
  exact view_update hj

lemma Wrote.append (h : Wrote fifo fifo' off src)
    (h' : Wrote fifo' fifo'' (off + src.length) src') : Wrote fifo fifo'' off (src ++ src') where
  size_eq := h'.size_eq.trans h.size_eq
  in_eq := h'.in_eq.trans h.in_eq
  out_eq := h'.out_eq.trans h.out_eq
  view_eq := fun i hi => by
    have hi' := h'.view_eq i (h.size_eq ▸ hi)
    rw [h.size_eq, h.out_eq, h.len_eq, h.view_eq i hi] at hi'
    rw [hi', ← add_assoc, Nat.sub_add_eq _ (kfifoLen fifo + off)]
    by_cases hlow : i < kfifoLen fifo + off
    · rw [if_pos (by omega), if_pos hlow, if_pos hlow]
    rw [if_neg hlow, if_neg hlow]
    by_cases hmid : i < kfifoLen fifo + off + src.length
    · rw [if_pos hmid, List.getElem?_append_left (by omega)]
    · rw [if_neg hmid, List.getElem?_append_right (by omega),
        List.getElem?_eq_none (show src.length ≤ i - (kfifoLen fifo + off) by omega)]
      rfl

lemma Wrote.prepend
    (h : Wrote fifo fifo' (off + src.length) src') (h' : Wrote fifo' fifo'' off src) :
    Wrote fifo fifo'' off (src ++ src') where
  size_eq := h'.size_eq.trans h.size_eq
  in_eq := h'.in_eq.trans h.in_eq
  out_eq := h'.out_eq.trans h.out_eq
  view_eq := fun i hi => by
    have hi' := h'.view_eq i (h.size_eq ▸ hi)
    rw [h.size_eq, h.out_eq, h.len_eq, h.view_eq i hi] at hi'
    rw [hi', ← add_assoc, Nat.sub_add_eq _ (kfifoLen fifo + off)]
    by_cases hlow : i < kfifoLen fifo + off
    · rw [if_pos hlow, if_pos (by omega), if_pos hlow]
    rw [if_neg hlow, if_neg hlow]
    by_cases hmid : i < kfifoLen fifo + off + src.length
    · rw [if_pos hmid, List.getElem?_append_left (by omega)]
    · rw [if_neg hmid, List.getElem?_append_right (by omega),
        List.getElem?_eq_none (show src.length ≤ i - (kfifoLen fifo + off) by omega)]
      rfl

lemma Valid.wrote_kfifoPokeN (hv : Valid fifo) (hpos : 0 < recsize)
    (hr : recsize ≤ 2) (hfit : kfifoLen fifo + recsize ≤ fifo.size) :
    Wrote fifo (kfifoPokeN fifo recsize n) 0 (recordField recsize n) := by
  have hfirst : Wrote fifo (kfifoPut fifo 0 n 0) 0 [UInt8.ofNat (n >>> 0)] :=
    hv.wrote_kfifoPut (by omega)
  obtain rfl | rfl : recsize = 1 ∨ recsize = 2 := by omega
  · exact hfirst
  · have hsecond : Wrote _ (kfifoPut (kfifoPut fifo 0 n 0) 1 n 8) 1 [UInt8.ofNat (n >>> 8)] :=
      (hfirst.valid hv).wrote_kfifoPut (by rw [hfirst.len_eq, hfirst.size_eq]; omega)
    exact hfirst.append hsecond

lemma Wrote.addIn (h : Wrote fifo fifo' 0 src) (hv : Valid fifo)
    (hfit : kfifoLen fifo + src.length ≤ fifo.size) :
    Valid (kfifoAddIn fifo' src.length) ∧ contents (kfifoAddIn fifo' src.length)
      = contents fifo ++ src := by
  obtain ⟨-, hsize⟩ := hv.size_bounds
  have hlen : kfifoLen (kfifoAddIn fifo' src.length) = kfifoLen fifo + src.length := by
    show subMod 32 (addMod 32 fifo'.in_ src.length) fifo'.out = _
    rw [h.in_eq, h.out_eq]
    exact subMod_addMod_left hv.in_lt hv.out_lt (hfit.trans_lt (by omega))
  refine ⟨⟨h.size_eq ▸ hv.size_eq, Nat.mod_lt _ (by omega), h.out_eq ▸ hv.out_lt, ?_⟩, ?_⟩
  · rw [hlen]
    exact h.size_eq ▸ hfit
  rw [contents, hlen, memread_add, zero_add]
  show memread (view fifo'.buffer fifo'.size fifo'.out) _ _ ++ _ = _
  rw [h.size_eq, h.out_eq]
  congr 1
  · refine memread_congr fun i hi => ?_
    rw [h.view_eq _ (by omega), if_pos (by omega)]
  refine memread_eq fun i hi => ?_
  show view fifo'.buffer fifo'.size fifo'.out _ = _
  rw [h.size_eq, h.out_eq, h.view_eq _ (by omega), if_neg (by omega), add_zero,
    Nat.add_sub_cancel_left, List.getElem?_eq_getElem hi]
  rfl

lemma Valid.kfifoOutData_view (hv : Valid fifo) {len : ℕ} (off : ℕ) (h : len ≤ kfifoLen fifo) :
    kfifoOutData fifo len off = memread (view fifo.buffer fifo.size fifo.out) off len := by
  have hle := hv.len_le
  have hstart : (fifo.out + off) % fifo.size < fifo.size := Nat.mod_lt _ hv.size_bounds.1
  rw [kfifoOutData]
  simp only [hv.kfifoOff_eq, hv.subMod_size hstart.le]
  rw [memread_wrap hstart (by omega)]
  refine memread_congr fun i hi => ?_
  rw [view_mod, view_add, zero_add]

lemma Valid.kfifoOutData_eq (hv : Valid fifo) {len : ℕ} (h : off + len ≤ kfifoLen fifo) :
    kfifoOutData fifo len off = ((contents fifo).drop off).take len := by
  rw [contents, drop_memread (by omega), take_memread (by omega), zero_add,
    hv.kfifoOutData_view off (by omega)]

lemma Valid.addOut (hv : Valid fifo) (h : n ≤ kfifoLen fifo) :
    Valid (kfifoAddOut fifo n) ∧ contents (kfifoAddOut fifo n) = (contents fifo).drop n := by
  have hle := hv.len_le
  have hlen : kfifoLen (kfifoAddOut fifo n) = kfifoLen fifo - n :=
    subMod_addMod_right hv.in_lt hv.out_lt h
  refine ⟨⟨hv.size_eq, hv.in_lt, Nat.mod_lt _ (by omega), ?_⟩, ?_⟩
  · rw [hlen]
    exact (Nat.sub_le _ _).trans hle
  rw [contents, hlen, contents, drop_memread h]
  refine memread_congr fun i hi => ?_
  have hmod : ∀ j, (addMod 32 fifo.out n + j) % fifo.size = (fifo.out + n + j) % fifo.size := by
    intro j
    rw [addMod, Nat.add_mod, Nat.mod_mod_of_dvd _ hv.size_dvd, ← Nat.add_mod]
  show fifo.buffer ((addMod 32 fifo.out n + (0 + i)) % fifo.size) = _
  rw [hmod, view, zero_add, zero_add, add_assoc]

lemma Valid.kfifoPeekN_eq (hv : Valid fifo) (hpos : 0 < recsize) (hr : recsize ≤ 2)
    (h : recsize ≤ kfifoLen fifo) :
    kfifoPeekN fifo recsize = fieldValue ((contents fifo).take recsize) := by
  have hget (off shift : ℕ) :
      kfifoGet fifo off shift = (view fifo.buffer fifo.size fifo.out off).toNat <<< shift := by
    rw [kfifoGet, hv.kfifoOff_eq, view]
  rw [contents, take_memread h, kfifoPeekN, hget, hget]
  obtain rfl | rfl : recsize = 1 ∨ recsize = 2 := by omega
  · rfl
  have hbyte := (view fifo.buffer fifo.size fifo.out 0).toNat_lt
  show _ <<< 0 ||| _ = (view fifo.buffer fifo.size fifo.out 0).toNat
    + 256 * ((view fifo.buffer fifo.size fifo.out 1).toNat + 256 * 0)
  rw [Nat.shiftLeft_zero, Nat.lor_comm, ← Nat.shiftLeft_add_eq_or_of_lt (by exact hbyte),
    Nat.shiftLeft_eq]
  omega

lemma Valid.kfifoOutN_eq (hv : Valid fifo) (len recsize : ℕ) (hlen : len + recsize < 2 ^ 32) :
    (kfifoLen fifo < recsize + len ∧ kfifoOutN fifo len recsize = (fifo, len, []))
    ∨ (recsize + len ≤ kfifoLen fifo ∧ kfifoOutN fifo len recsize
      = (kfifoAddOut fifo (recsize + len), 0, ((contents fifo).drop recsize).take len)) := by
  rw [kfifoOutN, addMod_of_lt hlen, add_comm len]
  by_cases h : kfifoLen fifo < recsize + len
  · exact .inl ⟨h, if_pos h⟩
  · exact .inr ⟨by omega, by rw [if_neg h, hv.kfifoOutData_eq (by omega)]⟩

def Matches (recsize : ℕ) (fifo : Kfifo) (c : Call) : Prop :=
  Valid (c.exec recsize fifo).1 ∧ (c.exec recsize fifo).1.size = fifo.size ∧
    (contents (c.exec recsize fifo).1, (c.exec recsize fifo).2)
      = c.onQueue recsize fifo.size (contents fifo)

lemma Valid.matches_in (hv : Valid fifo) (src : List UInt8) :
    Matches recsize fifo (.in_ src) := by
  have hle := hv.len_le
  obtain ⟨n, hn⟩ : ∃ n, n = min (fifo.size - kfifoLen fifo) src.length := ⟨_, rfl⟩
  have hlen : (src.take n).length = n := by
    rw [length_take]
    omega
  have hw : Wrote fifo (kfifoInData fifo (src.take n) 0) 0 (src.take n) :=
    hv.wrote_kfifoInData (by rw [hlen]; omega)
  obtain ⟨hv', hc⟩ := hw.addIn hv (by rw [hlen]; omega)
  rw [hlen] at hv' hc
  have hexec : (Call.in_ src).exec recsize fifo
      = (kfifoAddIn (kfifoInData fifo (src.take n) 0) n, ⟨n, [], none⟩) := by
    rw [Call.exec, kfifoIn, hv.kfifoAvail_eq, ← hn]
  rw [Matches, hexec]
  refine ⟨hv', hw.size_eq, ?_⟩
  have htake : src.take (fifo.size - kfifoLen fifo) = src.take n := by rw [hn, ← take_eq_take_min]
  rw [hc, Call.onQueue, length_contents, ← hn, htake]

lemma Valid.matches_out (hv : Valid fifo) (len : ℕ) : Matches recsize fifo (.out len) := by
  obtain ⟨n, hn⟩ : ∃ n, n = min (kfifoLen fifo) len := ⟨_, rfl⟩
  obtain ⟨hv', hc⟩ := hv.addOut (show n ≤ kfifoLen fifo by omega)
  have hexec : (Call.out len).exec recsize fifo
      = (kfifoAddOut fifo n, ⟨n, (contents fifo).take n, none⟩) := by
    rw [Call.exec, kfifoOut, ← hn, hv.kfifoOutData_eq (by omega), drop_zero]
  have hmin : n = min len (contents fifo).length := by
    rw [length_contents]
    omega
  rw [Matches, hexec]
  refine ⟨hv', rfl, ?_⟩
  have htake : (contents fifo).take len = (contents fifo).take n := by rw [hmin, ← take_eq_take_min]
  have hdrop : (contents fifo).drop len = (contents fifo).drop n := by rw [hmin, ← drop_eq_drop_min]
  rw [hc, Call.onQueue, htake, hdrop, length_contents, ← hn]

lemma Valid.matches_inRec (hv : Valid fifo) (hr : recsize ≤ 2)
    (hlen : (Call.inRec src).LengthOk recsize) (hs : (Call.inRec src).Sound recsize fifo) :
    Matches recsize fifo (.inRec src) := by
  have hle := hv.len_le
  obtain ⟨hlt, hfield⟩ := hlen
  have hsum : src.length + recsize < 2 ^ 32 := by
    obtain rfl | rfl | rfl : recsize = 0 ∨ recsize = 1 ∨ recsize = 2 := by omega
    · exact hlt
    all_goals
      omega
  have hnext : addMod 32 src.length 1 = src.length + 1 := Nat.mod_eq_of_lt hs
  have htotal : addMod 32 src.length recsize = src.length + recsize := Nat.mod_eq_of_lt hsum
  by_cases hfit : kfifoLen fifo + recsize + src.length ≤ fifo.size
  · have hdata := hv.wrote_kfifoInData hfit
    obtain ⟨fifo', hf⟩ : ∃ fifo', fifo' = if recsize ≠ 0 then
      kfifoPokeN (kfifoInData fifo src recsize) recsize src.length
      else kfifoInData fifo src recsize := ⟨_, rfl⟩
    have hw : Wrote fifo fifo' 0 (recordField recsize src.length ++ src) := by
      by_cases hzero : recsize = 0
      · subst hzero
        rw [hf, if_neg (by omega)]
        exact hdata
      rw [hf, if_pos hzero]
      refine Wrote.prepend (by rwa [length_recordField, zero_add])
        ((hdata.valid hv).wrote_kfifoPokeN (by omega) hr ?_)
      rw [hdata.len_eq, hdata.size_eq]
      omega
    have hwlen : (recordField recsize src.length ++ src).length = src.length + recsize := by
      rw [length_append, length_recordField, add_comm]
    obtain ⟨hv', hc⟩ := hw.addIn hv (by rw [hwlen]; omega)
    rw [hwlen] at hv' hc
    have hexec : (Call.inRec src).exec recsize fifo
        = (kfifoAddIn fifo' (src.length + recsize), ⟨0, [], none⟩) := by
      have hroom : kfifoInN fifo src recsize = (kfifoInData fifo src recsize, 0) := by
        rw [kfifoInN, hv.kfifoAvail_eq, htotal, if_neg (by omega)]
      rw [Call.exec, kfifoInRec, hroom, if_pos rfl, ← hf, htotal]
    rw [Matches, hexec]
    refine ⟨hv', hw.size_eq, ?_⟩
    rw [hc, Call.onQueue, length_contents, if_pos hfit, append_assoc]
  · have hexec : (Call.inRec src).exec recsize fifo = (fifo, ⟨src.length + 1, [], none⟩) := by
      have hfull : kfifoInN fifo src recsize = (fifo, src.length + 1) := by
        rw [kfifoInN, hv.kfifoAvail_eq, htotal, if_pos (by omega), hnext]
      rw [Call.exec, kfifoInRec, hfull, if_neg (Nat.succ_ne_zero src.length)]
    rw [Matches, hexec]
    refine ⟨hv, rfl, ?_⟩
    rw [Call.onQueue, length_contents, if_neg hfit]

lemma Valid.matches_outRec (hv : Valid fifo) (hr : recsize ≤ 2) (hn : n < 2 ^ 32)
    (hs : recsize ≤ kfifoLen fifo) : Matches recsize fifo (.outRec n) := by
  by_cases hzero : recsize = 0
  · subst hzero
    rcases hv.kfifoOutN_eq n 0 hn with ⟨hlt, heq⟩ | ⟨hle, heq⟩
    · have hexec : (Call.outRec n).exec 0 fifo = (fifo, ⟨n, [], some n⟩) := by
        rw [Call.exec, kfifoOutRec, if_pos rfl, heq]
      rw [Matches, hexec, Call.onQueue, if_pos rfl, length_contents, if_pos (.inr hlt)]
      exact ⟨hv, rfl, rfl⟩
    · obtain ⟨hv', hc⟩ := hv.addOut hle
      have hexec : (Call.outRec n).exec 0 fifo
          = (kfifoAddOut fifo (0 + n), ⟨0, ((contents fifo).drop 0).take n, some n⟩) := by
        rw [Call.exec, kfifoOutRec, if_pos rfl, heq]
      rw [Matches, hexec, hc, Call.onQueue, if_pos rfl, length_contents, if_neg (by omega)]
      exact ⟨hv', rfl, rfl⟩
  · obtain ⟨l, hl⟩ : ∃ l, l = fieldValue ((contents fifo).take recsize) := ⟨_, rfl⟩
    have hfield : l < 256 ^ 2 := by
      rw [hl]
      refine (fieldValue_lt _).trans_le (Nat.pow_le_pow_right (by omega) ?_)
      exact (length_take_le _ _).trans hr
    have hpeek : kfifoPeekN fifo recsize = l := by rw [hv.kfifoPeekN_eq (by omega) hr hs, hl]
    by_cases hlong : n < l
    · have hexec : (Call.outRec n).exec recsize fifo = (fifo, ⟨l, [], some l⟩) := by
        rw [Call.exec, kfifoOutRec, if_neg hzero, hpeek, if_pos hlong]
      rw [Matches, hexec, Call.onQueue, if_neg hzero, ← hl, if_pos (.inl hlong)]
      exact ⟨hv, rfl, rfl⟩
    rcases hv.kfifoOutN_eq l recsize (by omega) with ⟨hlt, heq⟩ | ⟨hle, heq⟩
    · have hexec : (Call.outRec n).exec recsize fifo = (fifo, ⟨l, [], some l⟩) := by
        rw [Call.exec, kfifoOutRec, if_neg hzero, hpeek, if_neg hlong, heq]
      rw [Matches, hexec, Call.onQueue, if_neg hzero, ← hl, length_contents, if_pos (.inr hlt)]
      exact ⟨hv, rfl, rfl⟩
    · obtain ⟨hv', hc⟩ := hv.addOut hle
      have hexec : (Call.outRec n).exec recsize fifo = (kfifoAddOut fifo (recsize + l),
          ⟨0, ((contents fifo).drop recsize).take l, some l⟩) := by
        rw [Call.exec, kfifoOutRec, if_neg hzero, hpeek, if_neg hlong, heq]
      rw [Matches, hexec, hc, Call.onQueue, if_neg hzero, ← hl, length_contents,
        if_neg (by omega)]
      exact ⟨hv', rfl, rfl⟩

lemma Valid.matches (hv : Valid fifo) (hr : recsize ≤ 2) (hlen : c.LengthOk recsize)
    (hs : c.Sound recsize fifo) : Matches recsize fifo c := by
  cases c with
  | in_ src => exact hv.matches_in src
  | out len => exact hv.matches_out len
  | inRec src => exact hv.matches_inRec hr hlen hs
  | outRec n => exact hv.matches_outRec hr hlen hs

lemma encode_cons (r : List UInt8) :
    encode recsize (r :: rs) = recordField recsize r.length ++ (r ++ encode recsize rs) := by
  rw [encode, flatMap_cons, append_assoc]
  rfl

lemma recordStep_onQueue (size : ℕ) (hr : recsize ≤ 2) (hrs : ∀ r ∈ rs, r.length < 256 ^ recsize)
    (hlen : c.LengthOk recsize) (hpos : 0 < recsize) (hrec : c.IsRecord)
    (hne : ∀ n, c = .outRec n → rs ≠ []) :
    ∃ rs', RecordStep recsize size rs c (c.onQueue recsize size (encode recsize rs)).2 rs' ∧
      (∀ r ∈ rs', r.length < 256 ^ recsize) ∧
      (c.onQueue recsize size (encode recsize rs)).1 = encode recsize rs' := by
  cases c with
  | in_ src => exact hrec.elim
  | out len => exact hrec.elim
  | inRec src =>
    rw [Call.onQueue]
    split_ifs with hfit
    · refine ⟨rs ++ [src], .put hfit, ?_, ?_⟩
      · intro r hr'
        rcases mem_append.mp hr' with hr' | hr'
        · exact hrs r hr'
        · rw [mem_singleton.mp hr']
          exact hlen.2 (by omega)
      · simp [encode]
    · exact ⟨rs, .full (by omega) (by omega), hrs, rfl⟩
  | outRec n =>
    obtain ⟨r, rs, rfl⟩ := exists_cons_of_ne_nil (hne n rfl)
    rw [forall_mem_cons] at hrs
    have htake : (encode recsize (r :: rs)).take recsize = recordField recsize r.length := by
      rw [encode_cons, take_left' (length_recordField _ _)]
    have hdrop : (encode recsize (r :: rs)).drop recsize = r ++ encode recsize rs := by
      rw [encode_cons, drop_left' (length_recordField _ _)]
    have hlength : (encode recsize (r :: rs)).length
        = recsize + r.length + (encode recsize rs).length := by
      rw [encode_cons, length_append, length_append, length_recordField, add_assoc]
    rw [Call.onQueue]
    simp only [if_neg hpos.ne', htake, fieldValue_recordField hr hrs.1]
    by_cases hlong : n < r.length
    · rw [if_pos (.inl hlong)]
      exact ⟨r :: rs, .tooLong hlong, forall_mem_cons.mpr hrs, rfl⟩
    · rw [if_neg (by omega), ← drop_drop, hdrop, drop_left, take_left]
      exact ⟨rs, .take (by omega), hrs.2, rfl⟩

lemma run_matches (hr : recsize ≤ 2) : ∀ {cs : List Call} {fifo : Kfifo}, Valid fifo →
    (∀ c ∈ cs, c.LengthOk recsize) → SoundRun recsize fifo cs → Valid (run recsize fifo cs).1 ∧
      (contents (run recsize fifo cs).1, (run recsize fifo cs).2)
        = runQueue recsize fifo.size (contents fifo) cs
  | [], fifo, hv, _, _ => ⟨hv, rfl⟩
  | c :: cs, fifo, hv, hlen, hs => by
    rw [forall_mem_cons] at hlen
    obtain ⟨hv', hsize, heq⟩ := hv.matches hr hlen.1 hs.1
    obtain ⟨hrun, hq⟩ := run_matches hr hv' hlen.2 hs.2
    refine ⟨hrun, ?_⟩
    rw [runQueue, ← heq]
    simp only []
    rw [← hsize, ← hq]
    rfl

lemma run_records (hr : recsize ≤ 2) (hpos : 0 < recsize) : ∀ {cs : List Call} {fifo : Kfifo}
    {rs : List (List UInt8)}, Valid fifo → (∀ c ∈ cs, c.LengthOk recsize) →
    SoundRun recsize fifo cs → (∀ c ∈ cs, c.IsRecord) → (∀ r ∈ rs, r.length < 256 ^ recsize) →
    contents fifo = encode recsize rs →
    ∃ rs', RecordRun recsize fifo.size rs cs (run recsize fifo cs).2 rs' ∧
      contents (run recsize fifo cs).1 = encode recsize rs'
  | [], fifo, rs, _, _, _, _, _, henc => ⟨rs, .nil, henc⟩
  | c :: cs, fifo, rs, hv, hlen, hs, hrec, hrs, henc => by
    rw [forall_mem_cons] at hlen hrec
    obtain ⟨hv', hsize, heq⟩ := hv.matches hr hlen.1 hs.1
    have hne (n : ℕ) (hc : c = .outRec n) : rs ≠ [] := by
      rintro rfl
      have hle : recsize ≤ kfifoLen fifo := by
        have := hs.1
        rwa [hc] at this
      rw [← length_contents, henc] at hle
      exact absurd hle (by simp [encode]; omega)
    obtain ⟨rs', hstep, hrs', hq⟩ := recordStep_onQueue fifo.size hr hrs hlen.1 hpos hrec.1 hne
    rw [← henc, ← heq] at hstep hq
    obtain ⟨rs'', hrun, hend⟩ := run_records hr hpos hv' hlen.2 hs.2 hrec.2 hrs' hq
    rw [hsize] at hrun
    exact ⟨rs'', .cons hstep hrun, hend⟩

/-- Every run of sound calls is a run of a queue of bytes, and with a record field and calls for
records only it is a run of a queue of records. -/
theorem kfifo_refines_queue {fifo : Kfifo} {cs : List Call} (hr : recsize ≤ 2) (hv : Valid fifo)
    (hlen : ∀ c ∈ cs, c.LengthOk recsize) (hs : SoundRun recsize fifo cs) :
    Valid (run recsize fifo cs).1 ∧ (contents (run recsize fifo cs).1, (run recsize fifo cs).2)
      = runQueue recsize fifo.size (contents fifo) cs ∧
    ∀ rs, 0 < recsize → (∀ c ∈ cs, c.IsRecord) → (∀ r ∈ rs, r.length < 256 ^ recsize) →
      contents fifo = encode recsize rs →
      ∃ rs', RecordRun recsize fifo.size rs cs (run recsize fifo cs).2 rs' ∧
        contents (run recsize fifo cs).1 = encode recsize rs' :=
  ⟨(run_matches hr hv hlen hs).1, (run_matches hr hv hlen hs).2,
    fun _ hpos hrec hrs henc => run_records hr hpos hv hlen hs hrec hrs henc⟩

theorem kfifo_refines_queue_wrap :
    (contents (run 1 ⟨fun _ => 0, 4, 2 ^ 32 - 1, 2 ^ 32 - 1⟩ [.inRec [5, 6], .outRec 3]).1,
      (run 1 ⟨fun _ => 0, 4, 2 ^ 32 - 1, 2 ^ 32 - 1⟩ [.inRec [5, 6], .outRec 3]).2)
      = runQueue 1 4 [] [.inRec [5, 6], .outRec 3] := by
  have hv : Valid ⟨fun _ => 0, 4, 2 ^ 32 - 1, 2 ^ 32 - 1⟩ :=
    ⟨⟨2, by decide, rfl⟩, by decide, by decide, by decide⟩
  have hlen : ∀ c ∈ [Call.inRec [5, 6], .outRec 3], c.LengthOk 1 := by simp [Call.LengthOk]
  have hs : SoundRun 1 ⟨fun _ => 0, 4, 2 ^ 32 - 1, 2 ^ 32 - 1⟩ [.inRec [5, 6], .outRec 3] :=
    ⟨by show 2 + 1 < 2 ^ 32; decide, by show 1 ≤ kfifoLen _; decide +kernel, trivial⟩
  exact (kfifo_refines_queue (by decide) hv hlen hs).2.1

/-- From an empty FIFO comes an empty record. And a FIFO of one byte loses it, when bytes as many as
the greatest length are put in. -/
theorem kfifo_rec_empty_and_greatest :
    (Valid ⟨fun _ => 0, 4, 0, 0⟩ ∧ contents ⟨fun _ => 0, 4, 0, 0⟩ = encode 1 [] ∧
      (Call.outRec 10).LengthOk 1 ∧ (kfifoOutRec ⟨fun _ => 0, 4, 0, 0⟩ 10 1).2 = ⟨0, [], some 0⟩ ∧
      ¬ ∃ rs', RecordStep 1 4 [] (.outRec 10) (kfifoOutRec ⟨fun _ => 0, 4, 0, 0⟩ 10 1).2 rs') ∧
    (Valid ⟨fun _ => 7, 4, 1, 0⟩ ∧ contents ⟨fun _ => 7, 4, 1, 0⟩ = [7] ∧
      (Call.inRec (List.replicate (2 ^ 32 - 1) 0)).LengthOk 0 ∧
      contents (kfifoInRec ⟨fun _ => 7, 4, 1, 0⟩ (List.replicate (2 ^ 32 - 1) 0) 0).1 = [] ∧
      (kfifoInRec ⟨fun _ => 7, 4, 1, 0⟩ (List.replicate (2 ^ 32 - 1) 0) 0).2.ret = 0) := by
  have hempty : (kfifoOutRec ⟨fun _ => 0, 4, 0, 0⟩ 10 1).2 = ⟨0, [], some 0⟩ := by decide +kernel
  have hlength : (replicate (2 ^ 32 - 1) (0 : UInt8)).length = 2 ^ 32 - 1 :=
    length_replicate
  revert hlength
  generalize replicate (2 ^ 32 - 1) (0 : UInt8) = src
  intro hlength
  have hgreatest : kfifoInRec ⟨fun _ => 7, 4, 1, 0⟩ src 0
      = (⟨fun _ => 7, 4, 0, 0⟩, ⟨0, [], none⟩) := by
    have hroom : kfifoAvail ⟨fun _ => 7, 4, 1, 0⟩ < addMod 32 (2 ^ 32 - 1) 0 := by decide +kernel
    have hret : addMod 32 (2 ^ 32 - 1) 1 = 0 := by decide +kernel
    have hin : addMod 32 1 (addMod 32 (2 ^ 32 - 1) 0) = 0 := by decide +kernel
    rw [kfifoInRec, kfifoInN, hlength, if_pos hroom, hret, if_pos rfl,
      if_neg (show ¬ (0 ≠ 0) from fun h => h rfl), kfifoAddIn, hin]
  refine ⟨⟨⟨⟨2, by decide, rfl⟩, by decide, by decide, by decide⟩, rfl, ?_, hempty, ?_⟩,
    ⟨⟨2, by decide, rfl⟩, by decide, by decide, by decide⟩, rfl, ?_, ?_, ?_⟩
  · show 10 < 2 ^ 32
    decide
  · rw [hempty]
    rintro ⟨rs', hstep⟩
    cases hstep with
    | empty hret => exact hret rfl
  · refine ⟨?_, fun h => absurd rfl h⟩
    rw [hlength]
    decide
  · rw [hgreatest]
    rfl
  · rw [hgreatest]

end LinuxKernel.Fifo
