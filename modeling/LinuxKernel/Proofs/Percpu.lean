import LinuxKernel.Percpu
import LinuxKernel.Proofs.Bitmap

/-!
# The area map of a chunk

The entries of the map tile the unit, and no two free ones are neighbours. An allocation turns a
free block into at most three, freeing an area joins it with the free blocks beside it, and blocks
in use never move. The sums in `pcpu_alloc_area` have to stay below `2 ^ 31`.
-/

namespace LinuxKernel.Mm

open List

variable {i k : ℕ} {y w x head tail unit size off : ℤ} {chunk : PcpuChunk}
  {pre post l l' pre' left p q right : List ℤ}

lemma intAdd_of_range {a b : ℤ} (h1 : -2 ^ 31 ≤ a + b) (h2 : a + b < 2 ^ 31) :
    intAdd a b = a + b :=
  Int.bmod_eq_of_le (by norm_num; omega) (by norm_num; omega)

lemma intSub_of_range {a b : ℤ} (h1 : -2 ^ 31 ≤ a - b) (h2 : a - b < 2 ^ 31) :
    intSub a b = a - b :=
  Int.bmod_eq_of_le (by norm_num; omega) (by norm_num; omega)

lemma alignInt_spec (h0 : 0 ≤ off) (h : off + 2 ^ k ≤ 2 ^ 31) :
    ∃ head, 0 ≤ head ∧ head < 2 ^ k ∧ alignInt off (2 ^ k) = off + head
    ∧ (2 ^ k : ℤ) ∣ off + head := by
  obtain ⟨n, rfl⟩ := Int.eq_ofNat_of_zero_le h0
  have hpos : 0 < 2 ^ k := Nat.two_pow_pos k
  have hn : n + 2 ^ k ≤ 2 ^ 31 := by exact_mod_cast h
  have hmask : BitVec.ofInt 32 (2 ^ k) - 1 = BitVec.ofNat 32 (2 ^ k - 1) := by
    have hcast : BitVec.ofInt 32 (2 ^ k) = BitVec.ofNat 32 (2 ^ k) := by
      rw [← BitVec.ofInt_natCast]
      norm_num
    rw [hcast]
    refine BitVec.eq_of_toNat_eq ?_
    rw [BitVec.toNat_sub, BitVec.toNat_ofNat, BitVec.toNat_ofNat,
      show (1 : BitVec 32).toNat = 1 from rfl]
    omega
  have hsum : (BitVec.ofInt 32 (n : ℤ) + BitVec.ofNat 32 (2 ^ k - 1)).toNat = n + (2 ^ k - 1) := by
    rw [BitVec.ofInt_natCast, BitVec.toNat_add, BitVec.toNat_ofNat, BitVec.toNat_ofNat]
    omega
  have hal := Lib.align_toNat (BitVec.ofInt 32 (n : ℤ) + BitVec.ofNat 32 (2 ^ k - 1)) k
  rw [hsum] at hal
  have hdm := Nat.div_add_mod (n + (2 ^ k - 1)) (2 ^ k)
  rw [mul_comm] at hdm
  set q := (n + (2 ^ k - 1)) / 2 ^ k * 2 ^ k with hq
  refine ⟨q - n, by omega, ?_, ?_, ?_⟩
  · have : ((2 ^ k : ℕ) : ℤ) = 2 ^ k := by norm_num
    omega
  · unfold alignInt Lib.align
    rw [hmask, BitVec.toInt_eq_toNat_of_lt (by omega), hal]
    omega
  · rw [add_sub_cancel]
    refine ⟨((n + (2 ^ k - 1)) / 2 ^ k : ℕ), ?_⟩
    rw [hq, mul_comm]
    norm_num

structure Holds (chunk : PcpuChunk) (l : List ℤ) : Prop where
  used : chunk.mapUsed = l.length
  seg : Seg chunk.map l

lemma holds_iff : Holds chunk l ↔ chunk.entries = l :=
  ⟨fun h => range_map_eq_iff.mpr ⟨h.used, h.seg⟩, fun h =>
    have h' := range_map_eq_iff.mp h
    ⟨h'.1, h'.2⟩⟩

lemma Holds.set (h : Holds chunk (pre ++ x :: post)) (hi : i = pre.length) (y : ℤ) :
    Holds (chunk.set i y) (pre ++ y :: post) :=
  ⟨by rw [PcpuChunk.set, h.used]; simp, h.seg.update hi y⟩

lemma Holds.erase (h : Holds chunk (pre ++ x :: post)) (hi : i = pre.length) :
    Holds { chunk with
      mapUsed := chunk.mapUsed - 1
      map := memmove chunk.map i (i + 1) (chunk.mapUsed - 1 - i) } (pre ++ post) := by
  have hused := h.used
  rw [length_append, length_cons] at hused
  refine ⟨?_, h.seg.erase hi (by omega)⟩
  simp only [length_append]
  omega

def optBlock (x : ℤ) : List ℤ := if x = 0 then [] else [x]

lemma Holds.gap (h : Holds chunk (pre ++ post)) {gap : List ℤ}
    (hgap : Seg (fun j => chunk.map (pre.length + j)) gap) (hk : k = gap.length) :
    Holds { chunk with
      map := memmove chunk.map (pre.length + k) pre.length (chunk.mapUsed - pre.length)
      mapUsed := chunk.mapUsed + k } (pre ++ (gap ++ post)) := by
  have hused := h.used
  rw [length_append] at hused
  subst hk
  refine ⟨?_, h.seg.insert hgap rfl (by omega)⟩
  simp only [length_append]
  omega

lemma splitHead_spec (h : Holds chunk (pre ++ x :: y :: post)) (h0 : 0 ≤ head)
    (hx : head ≤ x) (hmax : x < 2 ^ 31) (hi : i = pre.length) :
    Holds (splitHead chunk i head) (pre ++ head :: (x - head) :: post) := by
  have hs := h
  rw [append_cons] at hs
  have h1 := hs.set (i := i + 1) (by simp [hi]) (x - head)
  rw [← append_cons] at h1
  unfold splitHead
  rw [h.seg.middle hi, intSub_of_range (by omega) (by omega)]
  exact h1.set hi head

lemma splitTail_spec (h : Holds chunk (pre ++ x :: y :: post)) (h0 : 0 ≤ tail)
    (hx : tail ≤ x) (hmax : x < 2 ^ 31) (hi : i = pre.length) :
    Holds (splitTail chunk i tail) (pre ++ (x - tail) :: tail :: post) := by
  have h1 := h.set hi (x - tail)
  rw [append_cons] at h1
  have h2 := h1.set (i := i + 1) (by simp [hi]) tail
  rw [← append_cons] at h2
  unfold splitTail
  rw [h.seg.middle hi, intSub_of_range (by omega) (by omega)]
  exact h2

lemma pcpuSplitBlock_spec (h : Holds chunk (pre ++ x :: post))
    (hroom : chunk.mapUsed + 2 ≤ chunk.mapAlloc) (hhead : 0 ≤ head) (htail : 0 ≤ tail)
    (hx : head + tail ≤ x) (hmax : x < 2 ^ 31) :
    ∃ chunk', pcpuSplitBlock chunk pre.length head tail = some chunk'
      ∧ Holds chunk' (pre ++ (optBlock head ++ (x - head - tail) :: (optBlock tail ++ post)))
      ∧ chunk'.freeSize = chunk.freeSize ∧ chunk'.contigHint = chunk.contigHint
      ∧ chunk'.mapAlloc = chunk.mapAlloc := by
  have hxi : chunk.map (pre.length + 0) = x := h.seg.middle rfl
  have hgap1 : Seg (fun j => chunk.map (pre.length + j)) [x] := by
    rintro (_ | j) y hy
    · rw [← Option.some.inj hy]
      exact hxi
    · simp at hy
  have hgap2 : Seg (fun j => chunk.map (pre.length + j)) [x, chunk.map (pre.length + 1)] := by
    rintro (_ | _ | j) y hy
    · rw [← Option.some.inj hy]
      exact hxi
    · exact Option.some.inj hy
    · simp at hy
  unfold pcpuSplitBlock
  by_cases hh : head = 0
  · subst hh
    by_cases ht : tail = 0
    · subst ht
      have h1 := h.gap (fun _ _ hj => by simp at hj) (length_nil).symm
      simp only [ne_eq, not_true_eq_false, if_false]
      rw [if_neg (by omega)]
      exact ⟨_, rfl, by simpa [optBlock] using h1, rfl, rfl, rfl⟩
    · have h1 := splitTail_spec (h.gap hgap1 rfl) htail (by omega) hmax rfl
      simp only [ne_eq, not_true_eq_false, if_false, ht, not_false_eq_true, if_true]
      rw [if_neg (by omega)]
      exact ⟨_, rfl, by simpa [optBlock, ht] using h1, rfl, rfl, rfl⟩
  · by_cases ht : tail = 0
    · subst ht
      have h1 := splitHead_spec (h.gap hgap1 rfl) hhead (by omega) hmax rfl
      simp only [ne_eq, not_true_eq_false, if_false, hh, not_false_eq_true, if_true]
      rw [if_neg (by omega)]
      exact ⟨_, rfl, by simpa [optBlock, hh] using h1, rfl, rfl, rfl⟩
    · have h1 := splitHead_spec (h.gap hgap2 rfl) hhead (by omega) hmax rfl
      rw [append_cons] at h1
      have h2 := splitTail_spec h1 htail (by omega) (by omega) (i := pre.length + 1) (by simp)
      simp only [ne_eq, hh, ht, not_false_eq_true, if_true]
      rw [if_neg (by omega)]
      exact ⟨_, rfl, by simpa [optBlock, hh, ht] using h2, rfl, rfl, rfl⟩

lemma mergeHead_spec (h : Holds chunk (pre ++ [y] ++ x :: post)) (hy : y < 0)
    (h0 : 0 ≤ head) (hx : head ≤ x) (hmax : x - y < 2 ^ 31) (hi : i = pre.length + 1)
    (hfree : x ≤ chunk.freeSize) (hfmax : chunk.freeSize < 2 ^ 31) :
    Holds (mergeHead chunk i head) (pre ++ [y - head] ++ (x - head) :: post)
      ∧ (mergeHead chunk i head).freeSize = chunk.freeSize - head
      ∧ (mergeHead chunk i head).contigHint = chunk.contigHint
      ∧ (mergeHead chunk i head).mapUsed = chunk.mapUsed
      ∧ (mergeHead chunk i head).mapAlloc = chunk.mapAlloc := by
  rw [← append_cons] at h
  have hprev : chunk.map (i - 1) = y := h.seg.middle (by omega)
  have h1 := h.set (i := i - 1) (by omega) (y - head)
  rw [append_cons] at h1
  have hxi := h1.seg.middle (n := i) (by simp [hi])
  have h2 := h1.set (i := i) (by simp [hi]) (x - head)
  have hsx : intSub x head = x - head := intSub_of_range (by omega) (by omega)
  have hsy : intSub y head = y - head := intSub_of_range (by omega) (by omega)
  have hsf : intSub chunk.freeSize head = chunk.freeSize - head :=
    intSub_of_range (by omega) (by omega)
  unfold mergeHead
  rw [hprev, if_neg (by omega), hsy, hsf]
  simp only
  rw [hxi, hsx]
  exact ⟨⟨h2.used, h2.seg⟩, rfl, rfl, rfl, rfl⟩

/-- The area behind the first `head` bytes is taken out of a block, with a block left behind it when
what remains is large enough. -/
lemma carve_spec {maxContig : ℤ} (isLast : Bool) (hi : i = pre.length)
    (h : Holds chunk (pre ++ x :: post)) (hroom : chunk.mapUsed + 2 ≤ chunk.mapAlloc)
    (hsize : 0 < size) (hhead : 0 ≤ head)
    (hx : head + size ≤ x) (hmax : x < 2 ^ 31) (hoff : 0 ≤ off) (hoffx : off + x < 2 ^ 31)
    (hfree : x ≤ chunk.freeSize) (hfmax : chunk.freeSize < 2 ^ 31) (hcontig : 0 ≤ maxContig) :
    ∃ chunk' tail M, carve chunk size isLast i off head maxContig = some (chunk', off + head)
      ∧ 0 ≤ tail ∧ head + size + tail ≤ x
      ∧ Holds chunk' (pre ++ (optBlock head ++ -(x - head - tail) :: (optBlock tail ++ post)))
      ∧ chunk'.freeSize = chunk.freeSize - (x - head - tail)
      ∧ chunk'.contigHint = (if isLast then M else max chunk.contigHint M)
      ∧ chunk'.mapAlloc = chunk.mapAlloc ∧ maxContig ≤ M ∧ head ≤ M ∧ tail ≤ M := by
  subst hi
  have hxi : chunk.map pre.length = x := h.seg.middle rfl
  have htail : intSub (intSub x head) size = x - head - size := by
    rw [intSub_of_range (a := x) (by omega) (by omega)]
    exact intSub_of_range (by omega) (by omega)
  obtain ⟨tail, htdef, ht0, htle⟩ : ∃ tail,
      (if belowSizeofInt (x - head - size) then 0 else x - head - size) = tail ∧ 0 ≤ tail
        ∧ tail ≤ x - head - size := by refine ⟨_, rfl, ?_, ?_⟩ <;> split_ifs <;> omega
  obtain ⟨c1, hc1, h1, hf1, hh1, hal1⟩ : ∃ c1,
      (if head ≠ 0 ∨ tail ≠ 0 then pcpuSplitBlock chunk pre.length head tail else some chunk)
        = some c1
      ∧ Holds c1 (pre ++ (optBlock head ++ (x - head - tail) :: (optBlock tail ++ post)))
      ∧ c1.freeSize = chunk.freeSize ∧ c1.contigHint = chunk.contigHint
      ∧ c1.mapAlloc = chunk.mapAlloc := by
    by_cases hs : head ≠ 0 ∨ tail ≠ 0
    · rw [if_pos hs]
      exact pcpuSplitBlock_spec h hroom hhead ht0 (by omega) hmax
    · obtain ⟨rfl, rfl⟩ : head = 0 ∧ tail = 0 := by omega
      rw [if_neg hs]
      exact ⟨chunk, rfl, by simpa [optBlock] using h, rfl, rfl, rfl⟩
  have hi : (if head ≠ 0 then pre.length + 1 else pre.length) = (pre ++ optBlock head).length := by
    unfold optBlock
    by_cases hh : head = 0 <;> simp [hh]
  have h2 := h1
  rw [← append_assoc] at h2
  have hheadv : head ≠ 0 → c1.map pre.length = head := fun hh => by
    rw [optBlock, if_neg hh] at h1
    exact h1.seg.middle rfl
  have htailv : tail ≠ 0 → c1.map ((pre ++ optBlock head).length + 1) = tail := fun ht => by
    rw [show optBlock tail = [tail] from if_neg ht, append_cons] at h2
    exact h2.seg.middle (by simp only [length_append, length_singleton])
  have hoff' : (if head ≠ 0 then intAdd off head else off) = off + head := by
    by_cases hh : head = 0
    · simp [hh]
    · rw [if_pos hh, intAdd_of_range (by omega) (by omega)]
  unfold carve
  simp only [hxi, htail, htdef, hc1, hi, h2.seg.middle rfl, hoff', hf1, hh1]
  refine ⟨_, tail, _, rfl, ht0, by omega, ?_, intSub_of_range (by omega) (by omega), rfl, hal1, ?_⟩
  · have h3 := h2.set rfl (-(x - head - tail))
    rw [append_assoc] at h3
    exact ⟨h3.used, h3.seg⟩
  have hM : ∀ M0 : ℤ, (maxContig ≤ M0 ∧ head ≤ M0) →
      maxContig ≤ (if tail ≠ 0 then max (c1.map ((pre ++ optBlock head).length + 1)) M0 else M0)
        ∧ head ≤ (if tail ≠ 0 then max (c1.map ((pre ++ optBlock head).length + 1)) M0 else M0)
        ∧ tail ≤ (if tail ≠ 0 then max
        (c1.map ((pre ++ optBlock head).length + 1)) M0 else M0) := by
    rintro M0 ⟨hm1, hm2⟩
    by_cases ht : tail = 0
    · simp only [ht, ne_eq, not_true_eq_false, if_false]
      omega
    · rw [if_pos ht, htailv ht]
      omega
  refine hM _ ?_
  by_cases hh : head = 0
  · simp only [hh, ne_eq, not_true_eq_false, if_false]
    omega
  · have hlen : (pre ++ optBlock head).length - 1 = pre.length := by simp [optBlock, hh]
    rw [if_pos hh, hlen, hheadv hh]
    omega

/-- The invariant of a chunk whose map is `l`. -/
structure ChunkOk (unit : ℤ) (chunk : PcpuChunk) (l : List ℤ) : Prop where
  holds : Holds chunk l
  room : chunk.mapUsed ≤ chunk.mapAlloc
  sum : absSum l = unit
  nonzero : ∀ x ∈ l, x ≠ 0
  apart : Apart l
  free : chunk.freeSize = freeSum l
  hint : ∀ x ∈ l, x ≤ chunk.contigHint

def Kept (l l' : List ℤ) : Prop :=
  ∀ o x, (o, x) ∈ blocks 0 l → x < 0 → ∃ x', (o, x') ∈ blocks 0 l' ∧ x' ≤ x

lemma Kept.middle (mid mid' : List ℤ) (hpre : Kept pre l) (hfree : ∀ x ∈ mid, ¬ x < 0)
    (hsum : absSum (pre ++ mid) = absSum (l ++ mid')) :
    Kept (pre ++ (mid ++ post)) (l ++ (mid' ++ post)) := by
  intro o x hx hneg
  rw [← append_assoc, blocks_append, blocks_append, mem_append, mem_append] at hx
  rw [← append_assoc, blocks_append, blocks_append]
  rcases hx with (hx | hx) | hx
  · obtain ⟨x', hx', hle⟩ := hpre o x hx hneg
    exact ⟨x', mem_append_left _ (mem_append_left _ hx'), hle⟩
  · obtain ⟨l1, l2, rfl, -⟩ := mem_blocks_iff.mp hx
    exact absurd hneg (hfree x (by simp))
  · rw [hsum] at hx
    exact ⟨x, mem_append_right _ hx, le_rfl⟩

/-- What stands before the area once the head is dealt with: `kept` bytes of it as a block of their
own, the rest added to the block before. -/
structure Front (pre : List ℤ) (head kept : ℤ) (pre' : List ℤ) : Prop where
  len : pre'.length ≤ pre.length + 1
  sum : absSum pre' = absSum pre + head
  free : freeSum pre' = freeSum pre + kept
  nonzero : ∀ z ∈ pre', z ≠ 0
  apart : Apart pre'
  le : ∀ z ∈ pre', z ≤ 0 ∨ z ∈ pre ∨ z = kept
  keeps : Kept pre pre'

lemma optBlock_cases (x : ℤ) : (x = 0 ∧ optBlock x = []) ∨ (x ≠ 0 ∧ optBlock x = [x]) := by
  unfold optBlock
  split_ifs with h
  · exact .inl ⟨h, rfl⟩
  · exact .inr ⟨h, rfl⟩

lemma absSum_optBlock (h : 0 ≤ x) : absSum (optBlock x) = x := by
  rcases optBlock_cases x with ⟨rfl, hb⟩ | ⟨-, hb⟩
  · rw [hb]
    rfl
  · rw [hb, absSum_cons, absSum_nil, abs_of_nonneg h, add_zero]

lemma freeSum_optBlock (h : 0 ≤ x) : freeSum (optBlock x) = x := by
  rcases optBlock_cases x with ⟨rfl, hb⟩ | ⟨-, hb⟩
  · rw [hb]
    rfl
  · rw [hb, freeSum_cons, freeSum_nil, max_eq_left h, add_zero]

lemma length_optBlock (x : ℤ) : (optBlock x).length ≤ 1 := by
  rcases optBlock_cases x with ⟨-, hb⟩ | ⟨-, hb⟩ <;> simp [hb]

lemma mem_optBlock {z : ℤ} (h : z ∈ optBlock x) : z = x ∧ x ≠ 0 := by
  rcases optBlock_cases x with ⟨-, hb⟩ | ⟨h0, hb⟩
  · rw [hb] at h
    simp at h
  · rw [hb] at h
    exact ⟨mem_singleton.mp h, h0⟩

lemma apart_append_optBlock (h : Apart pre) (hlast : ∀ y ∈ pre.getLast?, y ≤ 0) :
    Apart (pre ++ optBlock x) := by
  rcases optBlock_cases x with ⟨-, hb⟩ | ⟨-, hb⟩
  · rwa [hb, append_nil]
  · rw [hb]
    refine apart_append.mpr ⟨h, isChain_singleton _, fun y hy z _ hpos => ?_⟩
    have := hlast y hy
    omega

lemma apart_optBlock_append (h : Apart post) (hfirst : ∀ y ∈ post.head?, y ≤ 0) :
    Apart (optBlock x ++ post) := by
  rcases optBlock_cases x with ⟨-, hb⟩ | ⟨-, hb⟩
  · rwa [hb, nil_append]
  · rw [hb]
    exact apart_cons.mpr ⟨fun y hy _ => hfirst y hy, h⟩

lemma Front.keep (hnz : ∀ z ∈ pre, z ≠ 0) (hapart : Apart pre)
    (hlast : ∀ y ∈ pre.getLast?, y ≤ 0) (h0 : 0 ≤ head) :
    Front pre head head (pre ++ optBlock head) where
  len := by
    rw [length_append]
    exact Nat.add_le_add_left (length_optBlock head) _
  sum := by rw [absSum_append, absSum_optBlock h0]
  free := by rw [freeSum_append, freeSum_optBlock h0]
  nonzero z hz := by
    rcases mem_append.mp hz with hz | hz
    · exact hnz z hz
    · obtain ⟨rfl, hne⟩ := mem_optBlock hz
      exact hne
  apart := apart_append_optBlock hapart hlast
  le z hz := by
    rcases mem_append.mp hz with hz | hz
    · exact .inr (.inl hz)
    · exact .inr (.inr (mem_optBlock hz).1)
  keeps o z hz _ := by
    rw [blocks_append]
    exact ⟨z, mem_append_left _ hz, le_rfl⟩

lemma Front.merge (hnz : ∀ z ∈ pre ++ [y], z ≠ 0) (hapart : Apart (pre ++ [y]))
    (hy : y < 0) (h0 : 0 ≤ head) : Front (pre ++ [y]) head 0 (pre ++ [y - head]) where
  len := by simp
  sum := by
    simp only [absSum_append, absSum_cons, absSum_nil]
    rw [abs_of_neg hy, abs_of_neg (show y - head < 0 by omega)]
    omega
  free := by
    simp only [freeSum_append, freeSum_cons, freeSum_nil]
    omega
  nonzero z hz := by
    rcases mem_append.mp hz with hz | hz
    · exact hnz z (mem_append_left _ hz)
    · rw [mem_singleton.mp hz]
      omega
  apart := by
    refine apart_append.mpr ⟨(apart_append.mp hapart).1, isChain_singleton _, ?_⟩
    intro z _ w hw _
    obtain rfl := Option.some.inj hw
    omega
  le z hz := by
    rcases mem_append.mp hz with hz | hz
    · exact .inr (.inl (mem_append_left _ hz))
    · rw [mem_singleton.mp hz]
      exact .inl (by omega)
  keeps o z hz hneg := by
    rw [blocks_append, mem_append] at hz
    rw [blocks_append]
    rcases hz with hz | hz
    · exact ⟨z, mem_append_left _ hz, le_rfl⟩
    · obtain ⟨rfl, rfl⟩ := Prod.mk.inj (mem_singleton.mp hz)
      exact ⟨z - head, mem_append_right _ mem_cons_self, by omega⟩

lemma ChunkOk.carved {M kept : ℤ} {chunk' : PcpuChunk} {isLast : Bool}
    (h : ChunkOk unit chunk (pre ++ x :: post)) (hf : Front pre head kept pre') (hx : 0 < x)
    (hsize : 0 < size) (hkept : 0 ≤ kept) (htail : 0 ≤ tail) (hle : head + size + tail ≤ x)
    (hholds : Holds chunk' (pre' ++ -(x - head - tail) :: (optBlock tail ++ post)))
    (hroom : chunk.mapUsed + 2 ≤ chunk'.mapAlloc)
    (hfree : chunk'.freeSize = chunk.freeSize - (head - kept) - (x - head - tail))
    (hhint : chunk'.contigHint = if isLast then M else max chunk.contigHint M)
    (hlast : isLast = true → post = []) (hM : ∀ z ∈ pre, z ≤ M) (hMk : kept ≤ M)
    (hMt : tail ≤ M) :
    ChunkOk unit chunk' (pre' ++ -(x - head - tail) :: (optBlock tail ++ post)) := by
  obtain ⟨⟨ha1, ha2⟩, ha3, ha4⟩ := h.apart.around hx
  have hsum := h.sum
  have hfree' := h.free
  simp only [absSum_append, absSum_cons, freeSum_append, freeSum_cons] at hsum hfree'
  rw [abs_of_pos hx] at hsum
  rw [max_eq_left hx.le] at hfree'
  refine ⟨hholds, ?_, ?_, fun z hz => ?_, ?_, ?_, fun z hz => ?_⟩
  · have h1 := hf.len
    have h2 := length_optBlock tail
    have h3 := h.holds.used
    rw [hholds.used]
    simp only [length_append, length_cons] at h3 ⊢
    omega
  · simp only [absSum_append, absSum_cons, absSum_optBlock htail, hf.sum]
    rw [abs_of_neg (show -(x - head - tail) < 0 by omega)]
    omega
  · simp only [mem_append, mem_cons] at hz
    rcases hz with hz | rfl | hz | hz
    · exact hf.nonzero z hz
    · omega
    · rw [(mem_optBlock hz).1]
      exact (mem_optBlock hz).2
    · exact h.nonzero z (by simp [hz])
  · refine apart_append.mpr ⟨hf.apart, apart_cons.mpr ⟨fun y _ hpos => by omega,
      apart_optBlock_append ha3 ha4⟩, fun y _ z hz _ => ?_⟩
    obtain rfl := Option.some.inj hz
    omega
  · simp only [freeSum_append, freeSum_cons, freeSum_optBlock htail, hf.free]
    rw [hfree, hfree', max_eq_right (show -(x - head - tail) ≤ 0 by omega)]
    omega
  · have hMh : M ≤ chunk'.contigHint := by
      rw [hhint]
      split_ifs
      · exact le_rfl
      · exact le_max_right _ _
    simp only [mem_append, mem_cons] at hz
    rcases hz with hz | rfl | hz | hz
    · rcases hf.le z hz with hz | hz | rfl
      · omega
      · exact (hM z hz).trans hMh
      · omega
    · omega
    · rw [(mem_optBlock hz).1]
      omega
    · rw [hhint]
      cases isLast with
      | true =>
        rw [hlast rfl] at hz
        simp at hz
      | false => exact (h.hint z (by simp [hz])).trans (le_max_left _ _)

structure Allocated (size off : ℤ) (l l' : List ℤ) : Prop where
  kept : Kept l l'
  area : ∃ z, (off, z) ∈ blocks 0 l' ∧ z < 0 ∧ size ≤ -z
  fresh : ∀ z, (off, z) ∈ blocks 0 l → ¬ z < 0

lemma Allocated.carved {kept : ℤ} (hnz : ∀ z ∈ pre ++ x :: post, z ≠ 0)
    (hf : Front pre head kept pre') (hx : 0 < x) (hsize : 0 < size) (hhead : 0 ≤ head)
    (htail : 0 ≤ tail) (hle : head + size + tail ≤ x) :
    Allocated size (absSum pre + head) (pre ++ x :: post)
      (pre' ++ -(x - head - tail) :: (optBlock tail ++ post)) := by
  have hblock : (absSum pre, x) ∈ blocks 0 (pre ++ x :: post) :=
    mem_blocks_iff.mpr ⟨pre, post, rfl, (zero_add _).symm⟩
  refine ⟨?_, ⟨-(x - head - tail), ?_, by omega, by omega⟩, fun z hz hneg => ?_⟩
  · refine Kept.middle [x] (-(x - head - tail) :: optBlock tail) hf.keeps (fun z hz => ?_) ?_
    · rw [mem_singleton.mp hz]
      omega
    · simp only [absSum_append, absSum_cons, absSum_nil, absSum_optBlock htail, hf.sum]
      rw [abs_of_pos hx, abs_of_neg (show -(x - head - tail) < 0 by omega)]
      omega
  · exact mem_blocks_iff.mpr ⟨pre', _, rfl, by rw [hf.sum, zero_add]⟩
  · by_cases h0 : head = 0
    · have := blocks_unique hnz hblock hz (by simp [h0])
      obtain rfl : x = z := congrArg Prod.snd this
      omega
    · have hz0 := abs_nonneg z
      have hd := blocks_disjoint hblock hz (by simp only; omega)
      simp only [abs_of_pos hx] at hd
      omega

lemma allocAt_spec {maxContig : ℤ} (h : ChunkOk unit chunk (pre ++ x :: post))
    (hunit : unit < 2 ^ 31) (hroom : chunk.mapUsed + 2 ≤ chunk.mapAlloc) (hx : 0 < x)
    (hsize : 0 < size) (hhead : 0 ≤ head) (hle : head + size ≤ x) (hfirst : head ≠ 0 → pre ≠ [])
    (hM : ∀ z ∈ pre, z ≤ maxContig) (hM0 : 0 ≤ maxContig) :
    ∃ chunk' l', allocAt chunk size pre.length (absSum pre) head maxContig
        = some (chunk', absSum pre + head)
      ∧ ChunkOk unit chunk' l' ∧ Allocated size (absSum pre + head) (pre ++ x :: post) l' := by
  obtain ⟨⟨ha1, ha2⟩, -, -⟩ := h.apart.around hx
  have hnz : ∀ z ∈ pre, z ≠ 0 := fun z hz => h.nonzero z (by simp [hz])
  have hsum := h.sum
  have hfree := h.free
  have hused := h.holds.used
  have hpos := absSum_nonneg pre
  have hpos' := absSum_nonneg post
  have hfpre := freeSum_nonneg pre
  have hfpost := freeSum_nonneg post
  have hfle := freeSum_le_absSum (pre ++ x :: post)
  rw [hsum, ← hfree] at hfle
  simp only [absSum_append, absSum_cons, freeSum_append, freeSum_cons, length_append,
    length_cons] at hsum hfree hused
  rw [abs_of_pos hx] at hsum
  rw [max_eq_left hx.le] at hfree
  have hlast : decide (pre.length + 1 = chunk.mapUsed) = true → post = [] := fun hd => by
    have := of_decide_eq_true hd
    exact length_eq_zero_iff.mp (by omega)
  unfold allocAt
  simp only
  by_cases hmerge : head ≠ 0 ∧ (belowSizeofInt head ∨ 0 < chunk.map (pre.length - 1))
  · rw [if_pos hmerge]
    obtain ⟨p, y, rfl⟩ : ∃ p y, pre = p ++ [y] :=
      ⟨_, _, (dropLast_append_getLast (hfirst hmerge.1)).symm⟩
    have hy : y < 0 := by
      have h1 := ha2 y (by simp)
      have h2 := hnz y (by simp)
      omega
    have hyabs : -y ≤ absSum (p ++ [y]) := by
      rw [absSum_append, absSum_cons, abs_of_neg hy]
      have := absSum_nonneg p
      simp only [absSum_nil]
      omega
    obtain ⟨h1, hf1, hh1, hu1, hal1⟩ := mergeHead_spec h.holds hy hhead (by omega) (by omega)
      (show (p ++ [y]).length = p.length + 1 by simp) (by omega) (by omega)
    rw [intAdd_of_range (by omega) (by omega)]
    generalize mergeHead chunk (p ++ [y]).length head = c1 at *
    obtain ⟨chunk', tail, M, hc, ht0, htle, hh, hf, hhint, hal, hm1, hm2, hm3⟩ :=
      carve_spec (decide ((p ++ [y]).length + 1 = chunk.mapUsed))
        (show (p ++ [y]).length = (p ++ [y - head]).length by simp) h1 (by omega) hsize le_rfl
        (show 0 + size ≤ x - head by omega) (by omega)
        (show 0 ≤ absSum (p ++ [y]) + head by omega) (by omega) (by omega) (by omega) hM0
    have hfront := Front.merge hnz ha1 hy hhead
    rw [sub_zero, show optBlock 0 = [] from rfl, nil_append] at hh
    rw [sub_zero, hf1, ← sub_zero head] at hf
    rw [add_zero] at hc
    rw [hh1] at hhint
    have hok := h.carved hfront hx hsize le_rfl ht0 (by omega) hh (by omega) (by simpa using hf)
      hhint hlast (fun z hz => (hM z hz).trans hm1) hm2 hm3
    exact ⟨chunk', _, hc, hok, Allocated.carved h.nonzero hfront hx hsize hhead ht0 (by omega)⟩
  · rw [if_neg hmerge]
    obtain ⟨chunk', tail, M, hc, ht0, htle, hh, hf, hhint, hal, hm1, hm2, hm3⟩ :=
      carve_spec (decide (pre.length + 1 = chunk.mapUsed)) rfl h.holds hroom hsize hhead hle
        (by omega) hpos (by omega) (by omega) (by omega) hM0
    have hfront := Front.keep hnz ha1 ha2 hhead
    rw [← append_assoc] at hh
    have hok := h.carved hfront hx hsize hhead ht0 htle hh (by omega) (by omega) hhint hlast
      (fun z hz => (hM z hz).trans hm1) hm2 hm3
    exact ⟨chunk', _, hc, hok, Allocated.carved h.nonzero hfront hx hsize hhead ht0 htle⟩

def AllocPost (unit size align : ℤ) (l : List ℤ) (chunk : PcpuChunk) (off : ℤ) : Prop :=
  (off = -1 ∧ ChunkOk unit chunk l)
    ∨ (0 ≤ off ∧ align ∣ off ∧ ∃ l', ChunkOk unit chunk l' ∧ Allocated size off l l')

lemma allocLoop_spec (hunit : unit + 2 ^ k ≤ 2 ^ 31) (hbound : size + 2 ^ k ≤ 2 ^ 31)
    (hsize : 0 < size) (hroom : chunk.mapUsed + 2 ≤ chunk.mapAlloc) :
    ∀ (rest pre : List ℤ) (maxContig : ℤ), ChunkOk unit chunk (pre ++ rest) →
      (∀ z ∈ pre, z ≤ maxContig) → 0 ≤ maxContig →
      ∃ chunk' off, allocLoop chunk size (2 ^ k) rest.length pre.length (absSum pre) maxContig
          = some (chunk', off) ∧ AllocPost unit size (2 ^ k) (pre ++ rest) chunk' off
  | [], pre, maxContig, h, hM, hM0 => by
    rw [append_nil] at h
    refine ⟨_, _, rfl, .inl ⟨rfl, ?_⟩⟩
    rw [append_nil]
    exact ⟨⟨h.holds.used, h.holds.seg⟩, h.room, h.sum, h.nonzero, h.apart, h.free, hM⟩
  | x :: rest, pre, maxContig, h, hM, hM0 => by
    have hpre := absSum_nonneg pre
    have hrest := absSum_nonneg rest
    have hsum := h.sum
    rw [absSum_append, absSum_cons] at hsum
    have hxabs := abs_nonneg x
    obtain ⟨head, hh0, hhlt, hal, hdvd⟩ :=
      alignInt_spec hpre (show absSum pre + 2 ^ k ≤ 2 ^ 31 by omega)
    have hhead : intSub (alignInt (absSum pre) (2 ^ k)) (absSum pre) = head := by
      rw [hal, intSub_of_range (by omega) (by omega), add_sub_cancel_left]
    have hfirst : head ≠ 0 → pre ≠ [] := by
      rintro hne rfl
      rw [absSum_nil, zero_add] at hdvd
      exact hne (Int.eq_zero_of_dvd_of_nonneg_of_lt hh0 hhlt hdvd)
    have hxi : chunk.map pre.length = x := h.holds.seg.middle rfl
    have hnext : intAdd (absSum pre) |x| = absSum (pre ++ [x]) := by
      rw [intAdd_of_range (by omega) (by omega)]
      simp
    have ih := fun M hM' hM0' => allocLoop_spec hunit hbound hsize hroom rest (pre ++ [x]) M
      (by rwa [← append_cons]) hM' hM0'
    simp only [length_append, length_singleton, ← append_cons] at ih
    rw [length_cons, allocLoop]
    simp only [hhead, hxi, hnext]
    have hbug : ¬ (pre.length = 0 ∧ head ≠ 0) := fun ⟨h1, h2⟩ =>
      hfirst h2 (length_eq_zero_iff.mp h1)
    rw [if_neg hbug]
    by_cases hneg : x < 0
    · rw [if_pos hneg]
      refine ih maxContig (fun z hz => ?_) hM0
      rcases mem_append.mp hz with hz | hz
      · exact hM z hz
      · rw [mem_singleton.mp hz]
        omega
    rw [if_neg hneg, intAdd_of_range (by omega) (by omega)]
    by_cases hsmall : x < head + size
    · rw [if_pos hsmall]
      refine ih (max x maxContig) (fun z hz => ?_) (by omega)
      rcases mem_append.mp hz with hz | hz
      · exact (hM z hz).trans (le_max_right _ _)
      · rw [mem_singleton.mp hz]
        exact le_max_left _ _
    · rw [if_neg hsmall]
      obtain ⟨chunk', l', hc, hok, halloc⟩ := allocAt_spec h (by omega) hroom (by omega) hsize hh0
        (by omega) hfirst hM hM0
      exact ⟨chunk', _, hc, .inr ⟨by omega, hdvd, l', hok, halloc⟩⟩

lemma pcpuAllocArea_spec (h : ChunkOk unit chunk l) (hunit : unit + 2 ^ k ≤ 2 ^ 31)
    (hbound : size + 2 ^ k ≤ 2 ^ 31) (hsize : 0 < size)
    (hroom : chunk.mapUsed + 2 ≤ chunk.mapAlloc) :
    ∃ chunk' off, pcpuAllocArea chunk size (2 ^ k) = some (chunk', off)
      ∧ AllocPost unit size (2 ^ k) l chunk' off := by
  rw [pcpuAllocArea, h.holds.used]
  exact allocLoop_spec hunit hbound hsize hroom l [] 0 h (fun z hz => by simp at hz) le_rfl

lemma freeLoop_spec (hunit : unit < 2 ^ 31) {pre0 : List ℤ}
    (h : ChunkOk unit chunk (pre0 ++ x :: post)) : ∀ (mid pre : List ℤ), pre0 = pre ++ mid →
    freeLoop chunk (absSum pre0) (mid.length + (post.length + 1)) pre.length (absSum pre)
      = (pre0.length, absSum pre0)
  | [], pre, hp => by
    rw [append_nil] at hp
    subst hp
    rw [length_nil, zero_add, freeLoop, if_pos rfl]
  | y :: mid, pre, hp => by
    have hy := abs_pos.mpr (h.nonzero y (by simp [hp]))
    have hyi : chunk.map pre.length = y := by
      have hs := h.holds.seg
      rw [hp, append_assoc, cons_append] at hs
      exact hs.middle rfl
    have hpre := absSum_nonneg pre
    have hmid := absSum_nonneg mid
    have hpost := absSum_nonneg post
    have hx := abs_nonneg x
    have hsum := h.sum
    have hpsum : absSum pre0 = absSum pre + (|y| + absSum mid) := by
      rw [hp, absSum_append, absSum_cons]
    rw [absSum_append, absSum_cons] at hsum
    have ih := freeLoop_spec hunit h mid (pre ++ [y]) (by rw [hp, append_cons])
    rw [length_cons, add_right_comm, freeLoop, if_neg (by omega), hyi,
      intAdd_of_range (by omega) (by omega)]
    simpa using ih

lemma mergePrev_spec {v : ℤ} (h : Holds chunk (pre ++ v :: post)) (hnz : ∀ z ∈ pre, z ≠ 0)
    (hapart : Apart pre) (hv : 0 < v) (hmax : absSum pre + v < 2 ^ 31)
    (hi : i = pre.length) :
    ∃ p left, pre = p ++ left ∧ (∀ z ∈ left, 0 < z) ∧ (∀ y ∈ p.getLast?, y ≤ 0)
      ∧ (mergePrev chunk i).2 = p.length
      ∧ Holds (mergePrev chunk i).1 (p ++ (absSum left + v) :: post)
      ∧ (mergePrev chunk i).1.freeSize = chunk.freeSize
      ∧ (mergePrev chunk i).1.contigHint = chunk.contigHint
      ∧ (mergePrev chunk i).1.mapAlloc = chunk.mapAlloc := by
  have hvi : chunk.map i = v := h.seg.middle hi
  unfold mergePrev
  by_cases hm : 0 < i ∧ 0 ≤ chunk.map (i - 1)
  · obtain ⟨p, y, rfl⟩ : ∃ p y, pre = p ++ [y] :=
      ⟨_, _, (dropLast_append_getLast (length_pos_iff.mp (by omega))).symm⟩
    have hip : i = p.length + 1 := by simpa using hi
    rw [← append_cons] at h
    have hyi : chunk.map (i - 1) = y := h.seg.middle (by omega)
    have hy : 0 < y := by
      have h1 := hnz y (by simp)
      have h2 := hm.2
      omega
    have hsum : absSum (p ++ [y]) = absSum p + y := by
      rw [absSum_append, absSum_cons, absSum_nil, abs_of_pos hy, add_zero]
    have hp := absSum_nonneg p
    have h1 := h.set (i := i - 1) (by omega) (y + v)
    rw [append_cons] at h1
    have h2 := h1.erase (i := i) (by simp [hip])
    rw [← append_cons] at h2
    rw [if_pos hm, hyi, hvi, intAdd_of_range (by omega) (by omega)]
    refine ⟨p, [y], rfl, by simpa using hy, (hapart.around hy).1.2, by simp [hip], ?_, rfl,
      rfl, rfl⟩
    rw [absSum_cons, absSum_nil, abs_of_pos hy, add_zero]
    exact h2
  · rw [if_neg hm]
    refine ⟨pre, [], by simp, by simp, fun y hy => ?_, hi, by simpa using h, rfl, rfl, rfl⟩
    obtain ⟨p, rfl⟩ := getLast?_eq_some_iff.mp hy
    rw [append_assoc] at h
    have hip : i = p.length + 1 := by simpa using hi
    have hyi : chunk.map (i - 1) = y := h.seg.middle (by omega)
    rw [hyi] at hm
    omega

lemma mergeNext_spec (h : Holds chunk (pre ++ w :: post)) (hnz : ∀ z ∈ post, z ≠ 0)
    (hapart : Apart post) (hw : 0 < w) (hmax : w + absSum post < 2 ^ 31)
    (hi : i = pre.length) :
    ∃ q right, post = right ++ q ∧ (∀ z ∈ right, 0 < z) ∧ (∀ y ∈ q.head?, y ≤ 0)
      ∧ Holds (mergeNext chunk i) (pre ++ (w + absSum right) :: q)
      ∧ (mergeNext chunk i).freeSize = chunk.freeSize
      ∧ (mergeNext chunk i).contigHint = chunk.contigHint
      ∧ (mergeNext chunk i).mapAlloc = chunk.mapAlloc := by
  have hused := h.used
  have hwi : chunk.map i = w := h.seg.middle hi
  simp only [length_append, length_cons] at hused
  unfold mergeNext
  cases post with
  | nil =>
    rw [if_neg (by simp only [length_nil] at hused; omega)]
    exact ⟨[], [], rfl, by simp, by simp, by simpa using h, rfl, rfl, rfl⟩
  | cons y q =>
    have hs := h
    rw [append_cons] at hs
    have hyi : chunk.map (i + 1) = y := hs.seg.middle (by simp [hi])
    have hne := hnz y (by simp)
    have hq := absSum_nonneg q
    rw [absSum_cons] at hmax
    rw [hyi, hwi]
    by_cases hy : 0 ≤ y
    · rw [abs_of_nonneg hy] at hmax
      simp only [length_cons] at hused
      rw [if_pos ⟨by omega, hy⟩, intAdd_of_range (by omega) (by omega)]
      have h1 := h.set hi (w + y)
      rw [append_cons] at h1
      have h2 := h1.erase (i := i + 1) (by simp [hi])
      rw [← append_cons] at h2
      refine ⟨q, [y], rfl, by simp; omega, fun z hz => (apart_cons.mp hapart).1 z hz (by omega),
        ?_, rfl, rfl, rfl⟩
      rw [absSum_cons, absSum_nil, abs_of_nonneg hy, add_zero]
      exact h2
    · rw [if_neg (fun hc => hy hc.2)]
      refine ⟨y :: q, [], rfl, by simp, fun z hz => ?_, by simpa using h, rfl, rfl, rfl⟩
      obtain rfl := Option.some.inj hz
      omega

def Freed (off : ℤ) (l l' : List ℤ) : Prop :=
  ∀ o x, (o, x) ∈ blocks 0 l → x < 0 → o ≠ off → (o, x) ∈ blocks 0 l'

lemma freed_join (hleft : ∀ z ∈ left, 0 < z)
    (hright : ∀ z ∈ right, 0 < z) (hw : |w| = absSum left + |x| + absSum right) :
    Freed (absSum (p ++ left)) (p ++ left ++ x :: (right ++ q)) (p ++ w :: q) := by
  intro o z hz hneg hne
  rw [blocks_append, mem_append, blocks_append, mem_append] at hz
  rw [blocks_append, blocks, mem_append, mem_cons]
  rcases hz with (hz | hz) | hz
  · exact .inl hz
  · obtain ⟨l1, l2, rfl, -⟩ := mem_blocks_iff.mp hz
    have := hleft z (by simp)
    omega
  rw [zero_add] at hz
  rcases mem_cons.mp hz with hz | hz
  · exact absurd (congrArg Prod.fst hz) hne
  rw [blocks_append, mem_append] at hz
  rcases hz with hz | hz
  · obtain ⟨l1, l2, rfl, -⟩ := mem_blocks_iff.mp hz
    have := hright z (by simp)
    omega
  · refine .inr (.inr ?_)
    rw [absSum_append] at hz
    rwa [hw, zero_add, ← add_assoc, ← add_assoc]

lemma freeSum_eq_absSum : ∀ {l : List ℤ}, (∀ z ∈ l, 0 < z) → freeSum l = absSum l
  | [], _ => rfl
  | z :: l, h => by
    have hz := h z mem_cons_self
    rw [freeSum_cons, absSum_cons, abs_of_pos hz, max_eq_left hz.le,
      freeSum_eq_absSum fun y hy => h y (mem_cons_of_mem _ hy)]

lemma markFree_spec (h : ChunkOk unit chunk (pre ++ x :: post)) (hunit : unit < 2 ^ 31)
    (hx : x < 0) (hi : i = pre.length) :
    Holds (markFree chunk i) (pre ++ -x :: post)
      ∧ (markFree chunk i).freeSize = freeSum (pre ++ -x :: post)
      ∧ (markFree chunk i).contigHint = chunk.contigHint
      ∧ (markFree chunk i).mapAlloc = chunk.mapAlloc := by
  have hxi : chunk.map i = x := h.holds.seg.middle hi
  have h1 := h.holds.set hi (-x)
  have hfle := freeSum_le_absSum (pre ++ -x :: post)
  have hf0 := freeSum_nonneg (pre ++ x :: post)
  have hsum := h.sum
  have hfree := h.free
  simp only [absSum_append, absSum_cons, freeSum_append, freeSum_cons, abs_of_neg hx, abs_neg,
    max_eq_right hx.le, max_eq_left (show 0 ≤ -x by omega)] at hsum hfree hfle hf0 ⊢
  unfold markFree
  rw [hxi, intAdd_of_range (by omega) (by omega)]
  exact ⟨⟨h1.used, h1.seg⟩, by simp only; omega, rfl, rfl⟩

lemma ChunkOk.joined {chunk' : PcpuChunk}
    (h : ChunkOk unit chunk (p ++ left ++ x :: (right ++ q))) (hx : x < 0)
    (hleft : ∀ z ∈ left, 0 < z) (hright : ∀ z ∈ right, 0 < z) (hp : ∀ y ∈ p.getLast?, y ≤ 0)
    (hq : ∀ y ∈ q.head?, y ≤ 0) (hw : w = absSum left + -x + absSum right)
    (hholds : Holds chunk' (p ++ w :: q)) (halloc : chunk'.mapAlloc = chunk.mapAlloc)
    (hfree : chunk'.freeSize = freeSum (p ++ left ++ -x :: (right ++ q)))
    (hhint : chunk'.contigHint = max w chunk.contigHint) : ChunkOk unit chunk' (p ++ w :: q) := by
  have hl := absSum_nonneg left
  have hr := absSum_nonneg right
  have hwpos : 0 < w := by omega
  obtain ⟨ha1, ha2, -⟩ := apart_append.mp h.apart
  have ha3 := (apart_cons.mp ha2).2
  refine ⟨hholds, ?_, ?_, fun z hz => ?_, ?_, ?_, fun z hz => ?_⟩
  · have hroom := h.room
    have hused := h.holds.used
    rw [hholds.used, halloc]
    simp only [length_append, length_cons] at hused ⊢
    omega
  · have hsum := h.sum
    simp only [absSum_append, absSum_cons, abs_of_neg hx, abs_of_pos hwpos] at hsum ⊢
    omega
  · rcases mem_append.mp hz with hz | hz
    · exact h.nonzero z (by simp [hz])
    · rcases mem_cons.mp hz with rfl | hz
      · exact hwpos.ne'
      · exact h.nonzero z (by simp [hz])
  · refine apart_append.mpr ⟨(apart_append.mp ha1).1,
      apart_cons.mpr ⟨fun y hy _ => hq y hy, (apart_append.mp ha3).2.1⟩, fun y hy _ _ hpos => ?_⟩
    have := hp y hy
    omega
  · rw [hfree]
    simp only [freeSum_append, freeSum_cons]
    rw [freeSum_eq_absSum hleft, freeSum_eq_absSum hright, max_eq_left hwpos.le,
      max_eq_left (show 0 ≤ -x by omega)]
    omega
  · rw [hhint]
    rcases mem_append.mp hz with hz | hz
    · exact (h.hint z (by simp [hz])).trans (le_max_right _ _)
    · rcases mem_cons.mp hz with rfl | hz
      · exact le_max_left _ _
      · exact (h.hint z (by simp [hz])).trans (le_max_right _ _)

lemma pcpuFreeArea_spec (h : ChunkOk unit chunk (pre ++ x :: post)) (hunit : unit < 2 ^ 31)
    (hx : x < 0) :
    ∃ chunk' l', pcpuFreeArea chunk (absSum pre) = some chunk' ∧ ChunkOk unit chunk' l'
      ∧ Freed (absSum pre) (pre ++ x :: post) l' := by
  have hloop := freeLoop_spec hunit h pre [] rfl
  have hused := h.holds.used
  rw [length_append, length_cons] at hused
  rw [← hused, length_nil, absSum_nil] at hloop
  have hxi : chunk.map pre.length = x := h.holds.seg.middle rfl
  have hpost := absSum_nonneg post
  have hsum := h.sum
  rw [absSum_append, absSum_cons, abs_of_neg hx] at hsum
  obtain ⟨ha1, ha2, -⟩ := apart_append.mp h.apart
  obtain ⟨h2, hf2, hh2, hal2⟩ := markFree_spec h hunit hx rfl
  obtain ⟨p, left, hp, hleft, hplast, hi, h3, hf3, hh3, hal3⟩ :=
    mergePrev_spec h2 (fun z hz => h.nonzero z (by simp [hz])) ha1 (by omega) (by omega) rfl
  have hpsum : absSum pre = absSum p + absSum left := by rw [hp, absSum_append]
  have hp0 := absSum_nonneg p
  have hl0 := absSum_nonneg left
  obtain ⟨q, right, hq, hright, hqhead, h4, hf4, hh4, hal4⟩ :=
    mergeNext_spec h3 (fun z hz => h.nonzero z (by simp [hz])) (apart_cons.mp ha2).2 (by omega)
      (by omega) hi
  have hend := h4.seg.middle hi
  unfold pcpuFreeArea
  rw [hloop]
  simp only [ne_eq, not_true_eq_false, if_false, hxi, if_neg (show ¬ 0 < x by omega)]
  subst hp hq
  refine ⟨_, _, rfl, h.joined hx hleft hright hplast hqhead rfl ⟨h4.used, h4.seg⟩ ?_ ?_ ?_, ?_⟩
  · exact hal4.trans (hal3.trans hal2)
  · exact hf4.trans (hf3.trans hf2)
  · simp only [hend, hh4, hh3, hh2]
  · have hr0 := absSum_nonneg right
    exact freed_join hleft hright (by rw [abs_of_pos (by omega), abs_of_neg hx])

structure PcpuArea where
  off : ℤ
  size : ℤ
  align : ℤ
deriving DecidableEq

inductive PcpuCall where
  | extend (newAlloc : ℕ)
  | alloc (size align : ℤ)
  | free (off : ℤ)

def PcpuCall.exec (chunk : PcpuChunk) (live : List PcpuArea) :
    PcpuCall → Option (PcpuChunk × List PcpuArea)
  | .extend newAlloc => some (pcpuExtendAreaMap chunk newAlloc, live)
  | .alloc size align => (pcpuAllocArea chunk size align).map fun (chunk, off) =>
      (chunk, if off = -1 then live else ⟨off, size, align⟩ :: live)
  | .free off => (pcpuFreeArea chunk off).map fun chunk => (chunk, live.filter (·.off ≠ off))

/-- The calls made: of a positive size and a power of two, with two spare slots in the map, and of
an area that is held. -/
def PcpuCall.Lawful (chunk : PcpuChunk) (live : List PcpuArea) : PcpuCall → Prop
  | .extend _ => True
  | .alloc size align =>
    0 < size ∧ (∃ k : ℕ, align = 2 ^ k) ∧ chunk.mapUsed + 2 ≤ chunk.mapAlloc
  | .free off => ∃ a ∈ live, a.off = off

def PcpuCall.Bounded (unit : ℤ) : PcpuCall → Prop
  | .alloc size align => unit + align ≤ 2 ^ 31 ∧ size + align ≤ 2 ^ 31
  | _ => True

inductive PcpuReach (unit : ℤ) (ok : PcpuChunk → List PcpuArea → PcpuCall → Prop) :
    PcpuChunk → List PcpuArea → Prop
  | fresh {mapAlloc : ℕ} : 0 < mapAlloc → PcpuReach unit ok (pcpuAllocChunk unit mapAlloc) []
  | call {chunk chunk' : PcpuChunk} {live live' : List PcpuArea} {c : PcpuCall} :
      PcpuReach unit ok chunk live → ok chunk live c → c.exec chunk live = some (chunk', live') →
      PcpuReach unit ok chunk' live'

variable {live : List PcpuArea} {unit : ℤ}

/-- The area is a block in use, aligned and large enough. -/
def AreaIn (l : List ℤ) (a : PcpuArea) : Prop :=
  0 < a.size ∧ a.align ∣ a.off ∧ ∃ x, (a.off, x) ∈ blocks 0 l ∧ x < 0 ∧ a.size ≤ -x

structure PcpuInv (unit : ℤ) (chunk : PcpuChunk) (live : List PcpuArea) (l : List ℤ) : Prop where
  ok : ChunkOk unit chunk l
  areas : ∀ a ∈ live, AreaIn l a
  distinct : live.Pairwise fun a b => a.off ≠ b.off

lemma pcpuAllocChunk_inv {mapAlloc : ℕ} (h0 : 0 < unit) (halloc : 0 < mapAlloc) :
    PcpuInv unit (pcpuAllocChunk unit mapAlloc) [] [unit] := by
  refine ⟨⟨⟨rfl, ?_⟩, halloc, ?_, ?_, isChain_singleton _, ?_, ?_⟩, by simp, by simp⟩
  · rintro (_ | i) x hx
    · exact Option.some.inj hx
    · simp at hx
  · simp [abs_of_pos h0]
  · simpa using h0.ne'
  · simp [pcpuAllocChunk, h0.le]
  · simp [pcpuAllocChunk]

lemma PcpuInv.extend (h : PcpuInv unit chunk live l) (newAlloc : ℕ) :
    PcpuInv unit (pcpuExtendAreaMap chunk newAlloc) live l := by
  unfold pcpuExtendAreaMap
  split_ifs with hle
  · exact h
  have hused := h.ok.holds.used
  have hroom := h.ok.room
  refine ⟨⟨⟨hused, fun i x hi => ?_⟩, ?_, h.ok.sum, h.ok.nonzero, h.ok.apart, h.ok.free,
    h.ok.hint⟩, h.areas, h.distinct⟩
  · have hlt := (List.getElem?_eq_some_iff.mp hi).1
    simp only
    rw [if_pos (by omega)]
    exact h.ok.holds.seg i x hi
  · simp only
    omega

lemma AreaIn.kept {a : PcpuArea} (h : AreaIn l a) (hk : Kept l l') :
    AreaIn l' a := by
  obtain ⟨h1, h2, x, hx, hneg, hle⟩ := h
  obtain ⟨x', hx', hxle⟩ := hk _ x hx hneg
  exact ⟨h1, h2, x', hx', by omega, by omega⟩

lemma PcpuInv.alloc (h : PcpuInv unit chunk live l) (hsize : 0 < size)
    (hroom : chunk.mapUsed + 2 ≤ chunk.mapAlloc) (hunit : unit + 2 ^ k ≤ 2 ^ 31)
    (hbound : size + 2 ^ k ≤ 2 ^ 31) :
    ∃ chunk' live' l', (PcpuCall.alloc size (2 ^ k)).exec chunk live = some (chunk', live')
      ∧ PcpuInv unit chunk' live' l' := by
  obtain ⟨chunk', off, hcall, hpost⟩ := pcpuAllocArea_spec h.ok hunit hbound hsize hroom
  simp only [PcpuCall.exec, hcall, Option.map_some]
  rcases hpost with ⟨rfl, hok⟩ | ⟨h0, hdvd, l', hok, halloc⟩
  · exact ⟨_, _, l, rfl, hok, h.areas, h.distinct⟩
  refine ⟨_, _, l', rfl, ?_⟩
  rw [if_neg (by omega)]
  refine ⟨hok, fun a ha => ?_, pairwise_cons.mpr ⟨fun a ha he => ?_, h.distinct⟩⟩
  · rcases mem_cons.mp ha with rfl | ha
    · exact ⟨hsize, hdvd, halloc.area⟩
    · exact (h.areas a ha).kept halloc.kept
  · obtain ⟨-, -, x, hx, hneg, -⟩ := h.areas a ha
    simp only at he
    exact halloc.fresh x (he ▸ hx) hneg

lemma PcpuInv.free (h : PcpuInv unit chunk live l) (hunit : unit < 2 ^ 31) {a : PcpuArea}
    (ha : a ∈ live) :
    ∃ chunk' live' l', (PcpuCall.free a.off).exec chunk live = some (chunk', live')
      ∧ PcpuInv unit chunk' live' l' := by
  obtain ⟨-, -, x, hx, hneg, -⟩ := h.areas a ha
  obtain ⟨pre, post, rfl, hoff⟩ := mem_blocks_iff.mp hx
  simp only [zero_add] at hoff
  obtain ⟨chunk', l', hcall, hok, hfreed⟩ := pcpuFreeArea_spec h.ok hunit hneg
  rw [hoff]
  simp only [PcpuCall.exec, hcall, Option.map_some]
  refine ⟨_, _, l', rfl, hok, fun b hb => ?_, h.distinct.filter _⟩
  obtain ⟨hb, hne⟩ := mem_filter.mp hb
  obtain ⟨h1, h2, y, hy, hyneg, hle⟩ := h.areas b hb
  exact ⟨h1, h2, y, hfreed _ y hy hyneg (by simpa using hne), hyneg, hle⟩

lemma PcpuInv.call (h : PcpuInv unit chunk live l) (hunit : unit < 2 ^ 31) {c : PcpuCall}
    (hlaw : c.Lawful chunk live) (hbound : c.Bounded unit) :
    ∃ chunk' live' l', c.exec chunk live = some (chunk', live') ∧ PcpuInv unit chunk' live' l' := by
  cases c with
  | extend newAlloc => exact ⟨_, _, l, rfl, h.extend newAlloc⟩
  | alloc size align =>
    obtain ⟨hsize, ⟨k, rfl⟩, hroom⟩ := hlaw
    exact h.alloc hsize hroom hbound.1 hbound.2
  | free off =>
    obtain ⟨a, ha, rfl⟩ := hlaw
    exact h.free hunit ha

lemma PcpuReach.inv (h0 : 0 < unit) (hunit : unit < 2 ^ 31)
    (h : PcpuReach unit (fun chunk live c => c.Lawful chunk live ∧ c.Bounded unit) chunk live) :
    ∃ l, PcpuInv unit chunk live l := by
  induction h with
  | fresh halloc => exact ⟨_, pcpuAllocChunk_inv h0 halloc⟩
  | call _ hok hexec ih =>
    obtain ⟨l, hl⟩ := ih
    obtain ⟨chunk', live', l', hcall, hinv⟩ := hl.call hunit hok.1 hok.2
    obtain ⟨rfl, rfl⟩ := Prod.mk.inj (Option.some.inj (hexec.symm.trans hcall))
    exact ⟨l', hinv⟩

/-- Where the sums of the calls stay below `2 ^ 31`, the map tiles the unit with no two free
neighbours, `free_size` and `contig_hint` are right, the areas held are aligned, large enough and
apart, and the next call runs into no `BUG_ON`. -/
theorem pcpu_map_exact (h0 : 0 < unit) (hunit : unit < 2 ^ 31)
    (h : PcpuReach unit (fun chunk live c => c.Lawful chunk live ∧ c.Bounded unit) chunk live) :
    absSum chunk.entries = unit ∧ chunk.freeSize = freeSum chunk.entries ∧ Apart chunk.entries
      ∧ (∀ x ∈ chunk.entries, x ≤ chunk.contigHint) ∧ (∀ a ∈ live, a.align ∣ a.off
          ∧ ∃ x, (a.off, x) ∈ blocks 0 chunk.entries ∧ x < 0 ∧ a.size ≤ -x)
      ∧ (live.Pairwise fun a b => ∀ x y, (a.off, x) ∈ blocks 0 chunk.entries →
          (b.off, y) ∈ blocks 0 chunk.entries → a.off + |x| ≤ b.off ∨ b.off + |y| ≤ a.off)
      ∧ ∀ c : PcpuCall, c.Lawful chunk live → c.Bounded unit →
          (c.exec chunk live).isSome = true := by
  obtain ⟨l, hinv⟩ := h.inv h0 hunit
  rw [holds_iff.mp hinv.ok.holds]
  refine ⟨hinv.ok.sum, hinv.ok.free, hinv.ok.apart, hinv.ok.hint, fun a ha => (hinv.areas a ha).2,
    hinv.distinct.imp fun {a b} (hne : a.off ≠ b.off) x y hx hy => blocks_disjoint hx hy hne,
    fun c hlaw hbound => ?_⟩
  obtain ⟨chunk', live', l', hcall, -⟩ := hinv.call hunit hlaw hbound
  rw [hcall]
  rfl

lemma PcpuReach.next {ok : PcpuChunk → List PcpuArea → PcpuCall → Prop}
    (h : PcpuReach unit ok chunk live) {c : PcpuCall} (hok : ok chunk live c)
    (hs : (c.exec chunk live).isSome = true) :
    PcpuReach unit ok ((c.exec chunk live).get hs).1 ((c.exec chunk live).get hs).2 :=
  h.call hok (Option.some_get hs).symm

theorem pcpu_map_exact_two_areas :
    ∃ chunk live,
      PcpuReach 32768 (fun chunk live c => c.Lawful chunk live ∧ c.Bounded 32768) chunk live
      ∧ live = [⟨8, 8, 8⟩, ⟨0, 1, 1⟩] ∧ chunk.entries = [-1, 7, -8, 32752]
      ∧ absSum chunk.entries = 32768 := by
  have h0 : PcpuReach 32768 (fun chunk live c => c.Lawful chunk live ∧ c.Bounded 32768)
      (pcpuAllocChunk 32768 16) [] := .fresh (by norm_num)
  have h1 := h0.next (c := .alloc 1 1) ⟨⟨by norm_num, ⟨0, by norm_num⟩, by decide⟩,
    by constructor <;> norm_num⟩ (by decide +kernel)
  have h2 := h1.next (c := .alloc 8 8) ⟨⟨by norm_num, ⟨3, by norm_num⟩, by decide +kernel⟩,
    by constructor <;> norm_num⟩ (by decide +kernel)
  exact ⟨_, _, h2, by decide +kernel, by decide +kernel,
    (pcpu_map_exact (by norm_num) (by norm_num) h2).1⟩

/-- A size of `INT_MAX` behind an area of one byte: `head + size` wraps round, the block passes for
large enough and the map no longer tiles the unit. -/
theorem pcpuAllocArea_wraps :
    ∃ chunk live, PcpuReach 32768 (fun chunk live c => c.Lawful chunk live) chunk live
      ∧ live = [⟨2, 2147483647, 2⟩, ⟨0, 1, 1⟩]
      ∧ chunk.entries = [-2, -2147483647, -2147450881] ∧ absSum chunk.entries ≠ 32768 := by
  have h0 : PcpuReach 32768 (fun chunk live c => c.Lawful chunk live)
      (pcpuAllocChunk 32768 16) [] :=
    .fresh (by norm_num)
  have h1 := h0.next (c := .alloc 1 1) ⟨by norm_num, ⟨0, by norm_num⟩, by decide⟩
      (by decide +kernel)
  have h2 := h1.next (c := .alloc 2147483647 2) ⟨by norm_num, ⟨1, by norm_num⟩, by decide +kernel⟩
    (by decide +kernel)
  exact ⟨_, _, h2, by decide +kernel, by decide +kernel, by decide +kernel⟩

end LinuxKernel.Mm
