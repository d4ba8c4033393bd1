import LinuxKernel.Ida
import LinuxKernel.Proofs.Idr

/-!
# An IDA is a set of ids

Id `i` is bit `i % IDA_BITMAP_BITS` of the bitmap at slot `i / IDA_BITMAP_BITS` of the IDR, and a
slot is marked full exactly when its bitmap is. The chunk that holds the id `MAX_ID_BIT` never
fills, so the search of the IDR always finds a slot within its limit.
-/

namespace LinuxKernel.Lib

open SlotTree Function

variable {L : LongSize} {k : Fin (idaBitmapBits L)} {y : IdaSlot L} {bitmap : IdaBitmap L}
  {p : IdaLayer L} {pa : IdaPath L} {layers t : ℕ} {free : IdFree (idrBits L) (IdaBitmap L)}
  {i : CInt} {ida ida' : Ida L} {x : Bool}

lemma toUlong_of_lt (h : i.toNat < 2 ^ 31) : toUlong L i = i.toNat := by
  have hb := L.two_pow_bits_ge
  rw [toUlong, BitVec.signExtend_eq_setWidth_of_msb_false (msb_eq_false h), BitVec.toNat_setWidth,
    Nat.mod_eq_of_lt (by omega)]

lemma idaChunk_toNat (h : i.toNat < 2 ^ 31) :
    (idaChunk L i).toNat = i.toNat / idaBitmapBits L := by
  have hle := Nat.div_le_self i.toNat (idaBitmapBits L)
  rw [idaChunk, toUlong_of_lt h, BitVec.toNat_ofNat, Nat.mod_eq_of_lt (by omega)]

lemma idaOffset_val (h : i.toNat < 2 ^ 31) :
    (idaOffset L i).val = i.toNat % idaBitmapBits L := by simp only [idaOffset, toUlong_of_lt h]

lemma idaBitmapBits_bounds (L : LongSize) : 960 ≤ idaBitmapBits L ∧ idaBitmapBits L ≤ 992 := by
  cases L <;> decide

def chunkLimit (L : LongSize) : ℕ := MAX_ID_BIT / idaBitmapBits L + 1

lemma chunkLimit_small (L : LongSize) : chunkLimit L < 2 ^ 30 := by
  cases L <;> decide

lemma chunkLimit_mul_lt (L : LongSize) : chunkLimit L * idaBitmapBits L < 2 ^ 32 := by
  cases L <;> decide

lemma maxIdBit_lt_chunkLimit (L : LongSize) : MAX_ID_BIT < chunkLimit L * idaBitmapBits L := by
  cases L <;> decide

lemma chunk_eq_iff {i : ℕ} :
    i = t * idaBitmapBits L + k ↔ i / idaBitmapBits L = t ∧ i % idaBitmapBits L = k := by
  have hpos := idaBitmapBits_pos L
  constructor
  · rintro rfl
    rw [mul_comm, Nat.mul_add_div hpos, Nat.mul_add_mod, Nat.div_eq_of_lt k.isLt,
      Nat.mod_eq_of_lt k.isLt]
    exact ⟨rfl, rfl⟩
  · rintro ⟨rfl, hk⟩
    rw [← hk]
    exact (Nat.div_add_mod' i _).symm

lemma bitCount_eq_all {n : ℕ} {f : Fin n → Bool} : bitCount f = n ↔ ∀ i, f i = true := by
  have h := Finset.card_eq_iff_eq_univ (Finset.univ.filter fun i => f i = true)
  rw [Fintype.card_fin, Finset.filter_eq_self] at h
  rw [bitCount, h]
  simp

def chunkBits : IdaSlot L → Fin (idaBitmapBits L) → Bool
  | .leaf bitmap => bitmap.bitmap
  | _ => fun _ => false

abbrev Ida.chunk (ida : Ida L) (j : ℕ) : IdaSlot L := rootPtr ida.idr.layers ida.idr.top j

def idaIds (ida : Ida L) : Set ℕ :=
  { i | chunkBits (ida.chunk (i / idaBitmapBits L))
    ⟨i % idaBitmapBits L, Nat.mod_lt _ (idaBitmapBits_pos L)⟩ = true }

/-- A leaf of an IDA: `count` counts the bitmaps, and a slot marked full has one. -/
structure IdaLeaf (info : LayerInfo (idrBits L)) (ary : Fin (2 ^ idrBits L) → IdaSlot L) : Prop where
  count : info.count = slotCount ary
  bits : ∀ n, info.bitmap n = true → (ary n).isNull = false

/-- A chunk and the full bit of its slot. -/
def ChunkOk (full : Bool) : IdaSlot L → Prop
  | .leaf bitmap => bitmap.nrBusy = bitCount bitmap.bitmap ∧ (full = true ↔ bitmap.nrBusy = idaBitmapBits L)
  | _ => full = false

structure IdaOk (ida : Ida L) : Prop where
  idr : IdrOk IdaLeaf ida.idr
  chunks : ∀ j, ChunkOk (ida.idr.used j) (ida.chunk j)
  small : ∀ i ∈ idaIds ida, i < MAX_ID_BIT

lemma idaLeaf_rule : LeafRule (IdaLeaf (L := L)) where
  zero := ⟨by rw [slotCount_null]; rfl, nofun⟩
  empty info ary h h0 := by
    have hary := slotCount_eq_zero (by exact_mod_cast h.count.symm.trans h0)
    refine ⟨hary, fun n => ?_⟩
    by_contra hn
    have := h.bits n (by simpa using hn)
    rw [hary] at this
    cases this
  remove info ary n h hn := by
    refine ⟨?_, fun m hm => ?_⟩
    · have hc := slotCount_update_sub ary n (h.bits n hn)
      simp only [h.count]
      omega
    · by_cases he : m = n
      · simp [LayerInfo.clearBit, he] at hm
      · rw [update_of_ne he]
        exact h.bits m (by simpa [LayerInfo.clearBit, he] using hm)

lemma mem_idaIds :
    t * idaBitmapBits L + k ∈ idaIds ida ↔ chunkBits (ida.chunk t) k = true := by
  obtain ⟨h1, h2⟩ := chunk_eq_iff.1 (rfl : t * idaBitmapBits L + k = _)
  simp only [idaIds, Set.mem_ofPred_eq, h1, h2]

lemma IdaOk.full_mem (h : IdaOk ida) (hu : ida.idr.used t = true)
    (k : Fin (idaBitmapBits L)) : t * idaBitmapBits L + k ∈ idaIds ida := by
  have hc := h.chunks t
  rw [mem_idaIds]
  cases hs : ida.chunk t with
  | leaf bitmap =>
    rw [hs] at hc
    have hn : (bitCount bitmap.bitmap : ℤ) = idaBitmapBits L := hc.1.symm.trans (hc.2.1 hu)
    exact bitCount_eq_all.1 (by exact_mod_cast hn) k
  | null => simp [hs, ChunkOk, hu] at hc
  | node _ _ => simp [hs, ChunkOk, hu] at hc

lemma IdaOk.room (h : IdaOk ida) : ida.idr.used (chunkLimit L) = false := by
  by_contra hu
  have hmem := h.full_mem (by simpa using hu) ⟨0, idaBitmapBits_pos L⟩
  have := h.small _ hmem
  have := maxIdBit_lt_chunkLimit L
  simp only at *
  omega

lemma IdaOk.same (h : IdaOk ida) (ida' : Ida L) (hidr : IdrOk IdaLeaf ida'.idr)
    (hs : ida.idr.Same ida'.idr) :
    IdaOk ida' ∧ idaIds ida' = idaIds ida := by
  have hids : idaIds ida' = idaIds ida := by
    ext i
    simp only [idaIds, Ida.chunk, hs.ptrs]
  refine ⟨⟨hidr, fun j => ?_, hids ▸ h.small⟩, hids⟩
  rw [Idr.used, Ida.chunk, hs.used, hs.ptrs]
  exact h.chunks j

lemma chunks_put (h : IdaOk ida)
    (hp : PutAt t x y ida.idr.layers ida.idr.top ida'.idr.layers ida'.idr.top) (hy : ChunkOk x y) (j : ℕ) :
    ChunkOk (ida'.idr.used j) (ida'.chunk j) := by
  rw [Idr.used, Ida.chunk, hp.used, hp.ptrs]
  split_ifs
  · exact hy
  · exact h.chunks j

lemma mem_idaIds_put {v : Bool}
    (hp : PutAt t x y ida.idr.layers ida.idr.top ida'.idr.layers ida'.idr.top)
    (hy : chunkBits y = update (chunkBits (ida.chunk t)) k v) (i : ℕ) :
    i ∈ idaIds ida' ↔ if i = t * idaBitmapBits L + k then v = true else i ∈ idaIds ida := by
  simp only [idaIds, Set.mem_ofPred_eq, Ida.chunk, hp.ptrs]
  by_cases ht : i / idaBitmapBits L = t
  · rw [if_pos ht, hy, update_apply]
    by_cases hk : i % idaBitmapBits L = k
    · rw [if_pos (Fin.ext hk), if_pos (chunk_eq_iff.2 ⟨ht, hk⟩)]
    · rw [if_neg (fun he => hk (congrArg Fin.val he)), if_neg (fun he => hk (chunk_eq_iff.1 he).2), ht]
  · rw [if_neg ht, if_neg (fun he => ht (chunk_eq_iff.1 he).1)]

lemma idaIds_put_same
    (hp : PutAt t x y ida.idr.layers ida.idr.top ida'.idr.layers ida'.idr.top)
    (hy : chunkBits y = chunkBits (ida.chunk t)) : idaIds ida' = idaIds ida := by
  ext i
  simp only [idaIds, Set.mem_ofPred_eq, Ida.chunk, hp.ptrs]
  split_ifs with ht
  · rw [hy, ht]
  · rfl

section

variable {s : IdaState L} {ida0 : Ida L} {start : ℕ}

/-- What holds at `restart:`, in a search from `start` of the ids of `ida0`. -/
structure IdaInv (ida0 : Ida L) (start : ℕ) (s : IdaState L) : Prop where
  ok : IdaOk s.ida
  ids : idaIds s.ida = idaIds ida0
  chunk_le : s.idrId.toNat ≤ chunkLimit L
  offset_lt : s.offset < idaBitmapBits L
  lo : start ≤ s.idrId.toNat * idaBitmapBits L + s.offset
  passed : ∀ i, start ≤ i → i < s.idrId.toNat * idaBitmapBits L + s.offset → i ∈ idaIds ida0

def IdaPost (ida0 : Ida L) (start : ℕ) : Option (Except ℤ CInt × Ida L) → Prop
  | none => False
  | some (.error e, ida) => (e = -EAGAIN ∨ e = -ENOSPC) ∧ IdaOk ida ∧ idaIds ida = idaIds ida0
  | some (.ok id, ida) => IsLeast { i | start ≤ i ∧ i ∉ idaIds ida0 } id.toNat ∧ IdaOk ida
      ∧ idaIds ida = insert id.toNat (idaIds ida0)

/-- The leaf in hand with the bit of the id clear, under layers that do not mark it full. -/
structure LeafAt (t : CInt) (p : IdaLayer L) (pa : IdaPath L) (layers : ℕ)
    (free : IdFree (idrBits L) (IdaBitmap L)) : Prop where
  level : 1 + pa.length = layers
  layers_le : layers ≤ maxLevel (idrBits L) - 1
  hi : t.toNat < 2 ^ (idrBits L * layers)
  path : PathOk IdaLeaf 0 true false pa
  onPath : OnPath (t.toNat / 2 ^ idrBits L) pa
  ok : LayerOk IdaLeaf 1 p.slot
  bit : p.info.bitmap (digit (idrBits L) 0 t.toNat) = false
  free : FreeOk free

variable {t : CInt}

section

variable (h : LeafAt t p pa layers free)

include h

lemma LeafAt.idrOk : IdrOk IdaLeaf ⟨plugAll pa p.slot, layers, free⟩ := by
  have hlevel := h.level
  refine ⟨?_, h.layers_le, ?_, h.free⟩
  · have := h.path.plugAll h.ok rfl (LayerInfo.full_eq_false h.bit)
    rwa [zero_add, hlevel] at this
  · have hnull : (plugAll pa p.slot).isNull = false := plugAll_isNull rfl
    simp only [hnull, ← hlevel]
    simp

lemma LeafAt.lt : t.toNat < 2 ^ 30 :=
  h.hi.trans_le (Nat.pow_le_pow_right (by omega)
    ((Nat.mul_le_mul_left _ h.layers_le).trans (maxLevel_bound _)))

lemma LeafAt.chunk :
    rootPtr layers (plugAll pa p.slot) t.toNat = p.ary (digit (idrBits L) 0 t.toNat) := by
  rw [rootPtr, if_pos h.hi, ← h.level, plugAll_slotAt (by rw [mul_one]; exact h.onPath)]
  rfl

lemma LeafAt.put (bitmap : IdaBitmap L) (count : ℤ)
    (hc : count = slotCount (update p.ary (digit (idrBits L) 0 t.toNat) (.leaf bitmap))) :
    LeafAt t ⟨{ p.info with count := count },
        update p.ary (digit (idrBits L) 0 t.toNat) (.leaf bitmap)⟩ pa layers free
      ∧ PutAt t.toNat false (.leaf bitmap) layers (plugAll pa p.slot) layers
        (plugAll pa (.node { p.info with count := count }
          (update p.ary (digit (idrBits L) 0 t.toNat) (.leaf bitmap)))) := by
  refine ⟨⟨h.level, h.layers_le, h.hi, h.path, h.onPath, ⟨⟨h.ok.1.1, hc, fun n hn => ?_⟩, fun n => ?_⟩, h.bit,
    h.free⟩, PutAt.plugAll h.level h.hi h.onPath (fun n => ?_) fun n => update_apply _ _ _ _⟩
  · simp only
    by_cases he : n = digit (idrBits L) 0 t.toNat
    · rw [he, update_self]
      rfl
    · rw [update_of_ne he]
      exact h.ok.1.2.bits n hn
  · simp only
    by_cases he : n = digit (idrBits L) 0 t.toNat
    · rw [he, update_self]
      trivial
    · rw [update_of_ne he]
      exact h.ok.kids n
  · split_ifs with he
    · rw [he]
      exact h.bit
    · rfl

omit h in
lemma PutAt.again {b : ℕ} {α : Type*} {i h k h' : ℕ} {x' : Bool} {y y' t u t' : IdrSlot b α}
    (h1 : PutAt i x y h t k u) (h2 : PutAt i x' y' k u h' t') : PutAt i x' y' h t h' t' := by
  refine ⟨fun j => ?_, fun j => ?_⟩
  · rw [h2.used, h1.used]
    split_ifs <;> rfl
  · rw [h2.ptrs, h1.ptrs]
    split_ifs <;> rfl

lemma LeafAt.setBit
    (hary : p.ary (digit (idrBits L) 0 t.toNat) = .leaf bitmap) :
    LayerOk IdaLeaf 1 (.node (p.info.setBit (digit (idrBits L) 0 t.toNat)) p.ary)
      ∧ PutAt t.toNat true (.leaf bitmap) layers (plugAll pa p.slot) layers
        (plugAll pa (.node (p.info.setBit (digit (idrBits L) 0 t.toNat)) p.ary)) := by
  refine ⟨⟨⟨h.ok.1.1, h.ok.1.2.count, fun n hb => ?_⟩, h.ok.kids⟩,
    PutAt.plugAll h.level h.hi h.onPath (fun n => update_apply _ _ _ _) fun n => ?_⟩
  · by_cases he : n = digit (idrBits L) 0 t.toNat
    · rw [he, hary]
      rfl
    · exact h.ok.1.2.bits n (by simpa [LayerInfo.setBit, he] using hb)
  · split_ifs with he
    · rw [he, hary]
    · rfl

lemma LeafAt.mark
    (hary : p.ary (digit (idrBits L) 0 t.toNat) = .leaf bitmap) :
    IdrOk IdaLeaf ⟨idrMarkFull t p pa, layers, free⟩
      ∧ PutAt t.toNat true (.leaf bitmap) layers (plugAll pa p.slot) layers (idrMarkFull t p pa) := by
  have hlt : t.toNat < 2 ^ 31 := h.lt.trans (by norm_num)
  have hn := idIndex_eq (b := idrBits L) 0 hlt
  have hlevel := h.level
  obtain ⟨hleaf, hput⟩ := h.setBit hary
  rw [← hn] at hleaf hput
  refine ⟨⟨?_, h.layers_le, ?_, h.free⟩, ?_⟩
  · have := idrMarkFull_ok (l := 0) hlt h.path h.onPath hleaf
    rwa [zero_add, hlevel] at this
  · simp only [idrMarkFull_isNull, ← hlevel]
    simp
  · have hsame := idrMarkFull_same pa 0 t p
    rw [zero_add, hlevel] at hsame
    exact PutAt.of_same (SameIds.refl _ _) hput hsame.sameIds

end

lemma throwAway_spec (h : IdaOk ida) : IdaOk (throwAway ida) ∧ idaIds
    (throwAway ida) = idaIds ida := by
  unfold throwAway
  split_ifs
  · cases hg : getFromFreeList ida.idr.free with
    | none => exact ⟨h, rfl⟩
    | some q =>
      obtain ⟨new, free'⟩ := q
      obtain ⟨-, -, -, hfree⟩ := h.idr.free.get hg
      exact ⟨⟨⟨h.idr.ok, h.idr.layers_le, h.idr.top, hfree⟩, h.chunks, h.small⟩, rfl⟩
  · exact ⟨h, rfl⟩

lemma LeafAt.take (hl : LeafAt t p pa layers free)
    (hary : p.ary (digit (idrBits L) 0 t.toNat) = .leaf bitmap)
    (hida : ida.idr = ⟨plugAll pa p.slot, layers, free⟩) (hok : IdaOk ida)
    (hk : bitmap.bitmap k = false) (hsmall : t.toNat * idaBitmapBits L + k < MAX_ID_BIT)
    {bitmap' : IdaBitmap L} (hbm : bitmap' = ⟨bitmap.nrBusy + 1, update bitmap.bitmap k true⟩)
    {p' : IdaLayer L} (hp' : p' = ⟨p.info, update p.ary (digit (idrBits L) 0 t.toNat) (.leaf bitmap')⟩)
    (ida' : Ida L) (hida' : ida'.idr = ⟨if bitmap'.nrBusy = idaBitmapBits L then idrMarkFull t p' pa
      else plugAll pa p'.slot, layers, free⟩) :
    IdaOk ida' ∧ idaIds ida' = insert (t.toNat * idaBitmapBits L + k) (idaIds ida) := by
  have hchunk : ida.chunk t.toNat = .leaf bitmap := by
    rw [Ida.chunk, hida]
    exact hl.chunk.trans hary
  have hcount : p.info.count
      = slotCount (update p.ary (digit (idrBits L) 0 t.toNat) (.leaf bitmap')) := by
    rw [slotCount_update_eq _ _ (by rw [hary]; rfl)]
    exact hl.ok.1.2.count
  obtain ⟨hl', hput⟩ := hl.put bitmap' _ hcount
  have hself : p'.ary (digit (idrBits L) 0 t.toNat) = .leaf bitmap' := by
    rw [hp']
    exact update_self _ _ _
  have hnew : IdrOk IdaLeaf ida'.idr ∧ PutAt t.toNat (decide (bitmap'.nrBusy = idaBitmapBits L))
      (.leaf bitmap') ida.idr.layers ida.idr.top ida'.idr.layers ida'.idr.top := by
    rw [hida, hida']
    split_ifs with hfull
    · obtain ⟨hidr, hmark⟩ := LeafAt.mark (p := p') (hp' ▸ hl') hself
      rw [decide_eq_true hfull]
      exact ⟨hidr, PutAt.again hput (hp' ▸ hmark)⟩
    · rw [decide_eq_false hfull]
      exact ⟨LeafAt.idrOk (p := p') (hp' ▸ hl'), hp' ▸ hput⟩
  obtain ⟨hidr, hput'⟩ := hnew
  have hmem := mem_idaIds_put (v := true) hput' (by rw [hchunk, hbm]; rfl)
  have hids : idaIds ida' = insert (t.toNat * idaBitmapBits L + k) (idaIds ida) := by
    ext i
    rw [hmem, Set.mem_insert_iff]
    split_ifs with hi <;> simp [hi]
  have hc := hok.chunks t.toNat
  rw [hchunk] at hc
  refine ⟨⟨hidr, chunks_put hok hput' ⟨?_, decide_eq_true_iff⟩, fun i hi => ?_⟩, hids⟩
  · rw [hbm, bitCount_set hk, hc.1]
    rfl
  · rw [hids, Set.mem_insert_iff] at hi
    rcases hi with rfl | hi
    · exact hsmall
    · exact hok.small i hi

lemma idaTake_spec {n : ℕ} (hn : 2 ^ 31 - s.idrId.toNat ≤ n) (hl : LeafAt s.idrId p pa layers free)
    (hary : p.ary (digit (idrBits L) 0 s.idrId.toNat) = .leaf bitmap)
    (hok : IdaOk { s.ida with idr := ⟨plugAll pa p.slot, layers, free⟩ })
    (hids : idaIds { s.ida with idr := ⟨plugAll pa p.slot, layers, free⟩ } = idaIds ida0)
    (hsmall : s.idrId.toNat * idaBitmapBits L < MAX_ID_BIT) (hoff : s.offset < idaBitmapBits L)
    (hlo : start ≤ s.idrId.toNat * idaBitmapBits L + s.offset)
    (hpassed : ∀ i, start ≤ i → i < s.idrId.toNat * idaBitmapBits L + s.offset → i ∈ idaIds ida0) :
    (idaTake s p pa layers free bitmap).Next (IdaInv ida0 start) (IdaPost ida0 start)
      (fun s => 2 ^ 31 - s.idrId.toNat) n := by
  obtain ⟨ida, t, offset⟩ := s
  simp only at *
  have hlt := hl.lt
  have hbounds := idaBitmapBits_bounds L
  have hmem : ∀ k : Fin (idaBitmapBits L),
      t.toNat * idaBitmapBits L + k ∈ idaIds ida0 ↔ bitmap.bitmap k = true := by
    intro k
    rw [← hids, mem_idaIds, Ida.chunk, hl.chunk, hary]
    rfl
  have hbelow : ∀ i, start ≤ i → ∀ k ≤ idaBitmapBits L, i < t.toNat * idaBitmapBits L + k →
      (∀ m : Fin (idaBitmapBits L), offset ≤ m → m < k → bitmap.bitmap m = true) → i ∈ idaIds ida0 := by
    intro i h1 k hk h2 hset
    rcases lt_or_ge i (t.toNat * idaBitmapBits L + offset) with h | h
    · exact hpassed i h1 h
    · have hm : i - t.toNat * idaBitmapBits L < idaBitmapBits L := by omega
      have := (hmem ⟨_, hm⟩).2 (hset ⟨_, hm⟩ (by simp only; omega) (by simp only; omega))
      rwa [Nat.add_sub_cancel' (by omega)] at this
  unfold idaTake
  cases hf : findNext (fun i => !bitmap.bitmap i) offset with
  | none =>
    have hset := fun m hm => findNext_none hf m hm
    have hnext : (t + 1).toNat = t.toNat + 1 := by
      rw [show t + 1 = t + 1#32 from rfl, BitVec.toNat_add, BitVec.toNat_ofNat]
      omega
    refine ⟨⟨hok, hids, ?_, by simp only; omega, ?_, fun i h1 h2 => ?_⟩, ?_⟩
    · have := (Nat.le_div_iff_mul_le (idaBitmapBits_pos L)).2 hsmall.le
      simp only [hnext, chunkLimit]
      omega
    · simp only [hnext, add_mul]
      omega
    · simp only [hnext, add_mul, one_mul, add_zero] at h2
      exact hbelow i h1 _ le_rfl h2 fun m hm _ => by simpa using hset m hm
    · simp only [hnext]
      omega
  | some k =>
    obtain ⟨hk, hge, hbefore⟩ := findNext_some hf
    have hid : (BitVec.ofNat 32 (toUlong L t * idaBitmapBits L + k)).toNat
        = t.toNat * idaBitmapBits L + k := by
      have := k.isLt
      rw [toUlong_of_lt (by omega), BitVec.toNat_ofNat]
      unfold MAX_ID_BIT at hsmall
      exact Nat.mod_eq_of_lt (by omega)
    have hclear : bitmap.bitmap k = false := by simpa using hk
    simp only [hid]
    by_cases hmax : MAX_ID_BIT ≤ t.toNat * idaBitmapBits L + k
    · rw [if_pos hmax]
      exact ⟨.inr rfl, hok, hids⟩
    rw [if_neg hmax]
    obtain ⟨hok', hids'⟩ := hl.take hary rfl hok hclear (not_le.1 hmax) rfl rfl
      ⟨⟨_, layers, free⟩, ida.freeBitmap⟩ rfl
    obtain ⟨hthrow, hsame⟩ := throwAway_spec hok'
    rw [hids', hids] at hsame
    have hleast : IsLeast { i | start ≤ i ∧ i ∉ idaIds ida0 } (t.toNat * idaBitmapBits L + k) := by
      refine ⟨⟨by omega, ?_⟩, fun i hi => ?_⟩
      · rw [hmem, hclear]
        simp
      · by_contra hlt
        refine hi.2 (hbelow i hi.1 k k.isLt.le (not_le.1 hlt) fun m h1 h2 => ?_)
        simpa using hbefore m h1 h2
    rw [idIndex_eq 0 (by omega)]
    rw [← hid] at hleast hsame
    exact ⟨hleast, hthrow, hsame⟩

lemma EmptyFound.leafAt {idp : Idr (idrBits L) (IdaBitmap L)} {i0 : ℕ}
    (h : EmptyFound IdaLeaf idp i0 t p pa layers) (hfree : FreeOk free) : LeafAt t p pa layers free :=
  ⟨h.level, h.layers_le, h.hi, h.path, h.onPath, h.ok, h.bit, hfree⟩

lemma LeafAt.newBitmap (hl : LeafAt t p pa layers free)
    (hary : p.ary (digit (idrBits L) 0 t.toNat) = .null)
    (hida : ida.idr = ⟨plugAll pa p.slot, layers, free⟩) (hok : IdaOk ida) {p' : IdaLayer L}
    (hp' : p' = ⟨{ p.info with count := p.info.count + 1 },
      update p.ary (digit (idrBits L) 0 t.toNat) (.leaf ⟨0, fun _ => false⟩)⟩)
    (ida' : Ida L) (hida' : ida'.idr = ⟨plugAll pa p'.slot, layers, free⟩) :
    LeafAt t p' pa layers free ∧ IdaOk ida' ∧ idaIds ida' = idaIds ida := by
  subst hp'
  obtain ⟨hl', hput⟩ := hl.put ⟨0, fun _ => false⟩ (p.info.count + 1) <| by
    rw [slotCount_update_add _ _ (by rw [hary]; rfl) rfl, hl.ok.1.2.count]
    rfl
  have hput' : PutAt t.toNat false (.leaf ⟨0, fun _ => false⟩) ida.idr.layers ida.idr.top
      ida'.idr.layers ida'.idr.top := by
    rw [hida, hida']
    exact hput
  have hchunk : ida.chunk t.toNat = .null := by
    rw [Ida.chunk, hida]
    exact hl.chunk.trans hary
  have hids : idaIds ida' = idaIds ida := idaIds_put_same hput' (by rw [hchunk]; rfl)
  refine ⟨hl', ⟨by rw [hida']; exact hl'.idrOk, chunks_put hok hput' ⟨?_, ?_⟩, hids ▸ hok.small⟩, hids⟩
  · simp [bitCount]
  · have := idaBitmapBits_pos L
    simp only [Bool.false_eq_true, false_iff]
    omega

lemma idaPass_spec (h : IdaInv ida0 start s) :
    (idaPass s).Next (IdaInv ida0 start) (IdaPost ida0 start) (fun s => 2 ^ 31 - s.idrId.toNat)
      (2 ^ 31 - s.idrId.toNat) := by
  obtain ⟨r, he, hpost⟩ := idrGetEmptySlot_spec idaLeaf_rule (maxLevel_idrBits L) h.ok.idr s.idrId
    h.chunk_le (by rw [idrBits_limit]; exact chunkLimit_small L) h.ok.room
  cases r with
  | bug => exact hpost.elim
  | stop rc idp =>
    obtain ⟨rfl, hidr, hsame⟩ := hpost
    obtain ⟨hok, hids⟩ := h.ok.same { s.ida with idr := idp } hidr hsame
    simp only [idaPass, he]
    exact ⟨.inl rfl, hok, hids.trans h.ids⟩
  | found t p pa layers free =>
    obtain ⟨hfound, hfree⟩ := hpost
    have hl := hfound.leafAt hfree
    obtain ⟨hok, hids⟩ := h.ok.same
      (⟨⟨plugAll pa p.slot, layers, free⟩, s.ida.freeBitmap⟩) hl.idrOk hfound.same
    have hids' := hids.trans h.ids
    have hle := hfound.lo
    have hlt := hl.lt
    have hlimit : t.toNat ≤ chunkLimit L := by
      by_contra hgt
      have := hfound.passed _ h.chunk_le (not_le.1 hgt)
      rw [h.ok.room] at this
      cases this
    have hmul : toUlong L t * idaBitmapBits L % 2 ^ L.bits = t.toNat * idaBitmapBits L := by
      have h1 := Nat.mul_le_mul_right (idaBitmapBits L) hlimit
      have h2 := chunkLimit_mul_lt L
      have h3 := L.two_pow_bits_ge
      rw [toUlong_of_lt (by omega)]
      exact Nat.mod_eq_of_lt (by omega)
    have hnext : t ≠ s.idrId → s.idrId.toNat * idaBitmapBits L + idaBitmapBits L
        ≤ t.toNat * idaBitmapBits L := by
      intro hne
      have hlt : s.idrId.toNat < t.toNat := by
        have := mt (fun h => BitVec.eq_of_toNat_eq h) hne
        omega
      have := Nat.mul_le_mul_right (idaBitmapBits L) hlt
      rwa [Nat.succ_mul] at this
    have hoff : (if t ≠ s.idrId then 0 else s.offset) < idaBitmapBits L := by
      split_ifs
      · exact idaBitmapBits_pos L
      · exact h.offset_lt
    have hlo : start ≤ t.toNat * idaBitmapBits L + if t ≠ s.idrId then 0 else s.offset := by
      have h1 := h.lo
      have h2 := h.offset_lt
      split_ifs with hne
      · have := hnext hne
        omega
      · rw [not_not.1 hne]
        exact h1
    have hpassed : ∀ i, start ≤ i →
        i < t.toNat * idaBitmapBits L + (if t ≠ s.idrId then 0 else s.offset) → i ∈ idaIds ida0 := by
      intro i h1 h2
      rcases lt_or_ge i (s.idrId.toNat * idaBitmapBits L + s.offset) with hi | hi
      · exact h.passed i h1 hi
      split_ifs at h2 with hne
      · have hc1 : s.idrId.toNat ≤ i / idaBitmapBits L :=
          (Nat.le_div_iff_mul_le (idaBitmapBits_pos L)).2 (by omega)
        have hc2 : i / idaBitmapBits L < t.toNat :=
          (Nat.div_lt_iff_lt_mul (idaBitmapBits_pos L)).2 (by omega)
        have hmem := h.ok.full_mem (hfound.passed _ hc1 hc2) ⟨_, Nat.mod_lt i (idaBitmapBits_pos L)⟩
        rw [← h.ids]
        simpa only [Nat.div_add_mod'] using hmem
      · rw [not_not.1 hne] at h2
        omega
    simp only [idaPass, he, hmul]
    by_cases hmax : MAX_ID_BIT ≤ t.toNat * idaBitmapBits L
    · rw [if_pos hmax]
      exact ⟨.inr rfl, hok, hids'⟩
    rw [if_neg hmax, idIndex_eq 0 (by omega)]
    cases hary : p.ary (digit (idrBits L) 0 t.toNat) with
    | leaf bitmap => exact idaTake_spec (by simp only; omega) hl hary hok hids' (not_le.1 hmax) hoff hlo hpassed
    | node info ary =>
      have := hl.ok.kids (digit (idrBits L) 0 t.toNat)
      rw [hary] at this
      exact this.elim
    | null =>
      cases hb : s.ida.freeBitmap with
      | none =>
        rw [hb] at hok hids'
        exact ⟨.inl rfl, hok, hids'⟩
      | some _ =>
        obtain ⟨hl', hok', hids2⟩ := hl.newBitmap hary rfl hok rfl ⟨⟨_, layers, free⟩, none⟩ rfl
        exact idaTake_spec (by simp only; omega) hl' (update_self _ _ _) hok' (hids2.trans hids')
          (not_le.1 hmax) hoff hlo hpassed

lemma idaGetNewAbove_spec (h : IdaOk ida) {startingId : CInt} (hs : startingId.toNat < 2 ^ 31) :
    ∃ r, idaGetNewAbove ida startingId = some r ∧ IdaPost ida startingId.toNat (some r) := by
  have hchunk := idaChunk_toNat (L := L) hs
  have hoff := idaOffset_val (L := L) hs
  have hstart : (idaChunk L startingId).toNat * idaBitmapBits L + idaOffset L startingId
      = startingId.toNat := by
    rw [hchunk, hoff]
    exact Nat.div_add_mod' _ _
  have hinv : IdaInv ida startingId.toNat ⟨ida, idaChunk L startingId, idaOffset L startingId⟩ := by
    refine ⟨h, rfl, ?_, (idaOffset L startingId).isLt, hstart.ge, fun i h1 h2 => ?_⟩
    · have := Nat.div_le_div_right (c := idaBitmapBits L) (show startingId.toNat ≤ MAX_ID_BIT from hs.le)
      simp only [hchunk, chunkLimit]
      omega
    · rw [hstart] at h2
      omega
  obtain ⟨r, hr, hpost⟩ := Pass.run_of_next (fun _ hs => idaPass_spec hs) (2 ^ 32) hinv
    (by simp only; omega)
  rw [idaGetNewAbove, hr, Option.join_some]
  cases r with
  | none => exact hpost.elim
  | some r => exact ⟨r, rfl, hpost⟩

end

variable {t : CInt}

lemma idaRemove_leaf (h : IdaOk ida) (ht : t.toNat < 2 ^ 31)
    (hchunk : ida.chunk t.toNat = .leaf bitmap) :
    ∃ pa info ary, subRemoveDown t (ida.idr.layers - 1) [] ida.idr.top = (pa, .node info ary)
      ∧ ary (digit (idrBits L) 0 t.toNat) = .leaf bitmap
      ∧ LeafAt t ⟨info.clearBit (digit (idrBits L) 0 t.toNat), ary⟩ pa ida.idr.layers ida.idr.free
      ∧ PutAt t.toNat false (.leaf bitmap) ida.idr.layers ida.idr.top ida.idr.layers
        (plugAll pa (.node (info.clearBit (digit (idrBits L) 0 t.toNat)) ary)) := by
  have hlt : t.toNat < 2 ^ (idrBits L * ida.idr.layers) := by
    by_contra hge
    rw [Ida.chunk, rootPtr, if_neg hge] at hchunk
    cases hchunk
  have hslot : slotAt ida.idr.layers ida.idr.top t.toNat = .leaf bitmap := by
    rwa [Ida.chunk, rootPtr, if_pos hlt] at hchunk
  have hpos : 0 < ida.idr.layers := by
    by_contra h0
    rw [eq_null_of_isNull (h.idr.top.2 (by omega)), slotAt_null] at hslot
    cases hslot
  obtain ⟨l, hd, hl⟩ := subRemoveDown_spec ht (DownPost.start h.idr hpos t.toNat)
  cases hdown : subRemoveDown t (ida.idr.layers - 1) [] ida.idr.top with
  | mk pa q =>
    simp only [hdown] at hd hl
    have hslot' := hd.same.slots t.toNat
    rw [hslot, ← hd.level, plugAll_slotAt hd.onPath] at hslot'
    rcases hd.ok.node_cases with rfl | ⟨info, ary, rfl⟩
    · rw [slotAt_null] at hslot'
      cases hslot'
    obtain rfl : l = 0 := hl rfl
    have hlevel := hd.level
    have hon := hd.onPath
    rw [zero_add] at hlevel
    rw [zero_add, mul_one] at hon
    have hary : ary (digit (idrBits L) 0 t.toNat) = .leaf bitmap := hslot'
    refine ⟨pa, info, ary, rfl, hary, ⟨hlevel, h.idr.layers_le, hlt, hd.path, hon, ?_,
      update_self _ _ _, h.idr.free⟩, ?_⟩
    · refine ⟨⟨hd.ok.1.1, hd.ok.1.2.count, fun n hn => ?_⟩, hd.ok.kids⟩
      by_cases he : n = digit (idrBits L) 0 t.toNat
      · simp only [he, hary]
        rfl
      · exact hd.ok.1.2.bits n (by simpa [LayerInfo.clearBit, he] using hn)
    · refine PutAt.of_same hd.same.sameIds (PutAt.plugAll hlevel hlt hon (fun n => ?_) fun n => ?_)
        (SameIds.refl _ _)
      · exact update_apply _ _ _ _
      · split_ifs with he
        · rw [he, hary]
        · rfl

lemma freeBitmap_idr (ida : Ida L) (bitmap : IdaBitmap L) : (freeBitmap ida bitmap).idr = ida.idr := by
  unfold freeBitmap
  split_ifs <;> rfl

lemma LeafAt.removeBitmap (hl : LeafAt t p pa layers free)
    (hary : p.ary (digit (idrBits L) 0 t.toNat) = .leaf bitmap) {idp : Idr (idrBits L) (IdaBitmap L)}
    (hidp : idp = ⟨plugAll pa (.node (p.info.setBit (digit (idrBits L) 0 t.toNat)) p.ary), layers, free⟩) :
    IdrOk IdaLeaf (idrRemove idp t)
      ∧ PutAt t.toNat false .null layers (plugAll pa p.slot) (idrRemove idp t).layers (idrRemove idp t).top := by
  have ht : t.toNat < 2 ^ 31 := hl.lt.trans (by norm_num)
  have hlevel := hl.level
  have hon : OnPath (t.toNat / 2 ^ (idrBits L * (0 + 1))) pa := by
    rw [zero_add, mul_one]
    exact hl.onPath
  obtain ⟨pa', hdown, hlen, hpath, hon', hplug⟩ := subRemoveDown_plugAll ht
    (q := .node (p.info.setBit (digit (idrBits L) 0 t.toNat)) p.ary) [] hl.path hon
  rw [zero_add, subRemoveDown_zero, List.append_nil] at hdown
  rw [zero_add, mul_one] at hon'
  obtain ⟨hleaf, hput⟩ := hl.setBit hary
  have hbit : (p.info.setBit (digit (idrBits L) 0 t.toNat)).bitmap (digit (idrBits L) 0 t.toNat) = true :=
    update_self _ _ _
  have hlayers : idp.layers = layers := by rw [hidp]
  have htop : idp.top = plugAll pa (.node (p.info.setBit (digit (idrBits L) 0 t.toNat)) p.ary) := by rw [hidp]
  obtain ⟨hok, hremove⟩ := subRemove_found idaLeaf_rule ht (hlayers ▸ hl.layers_le)
    (by rw [hidp]; exact hl.free) (by rw [htop, hlayers, ← hdown, ← hlevel, Nat.add_sub_cancel_left])
    (by omega) hpath hon' hbit (UpOk.leaf idaLeaf_rule hleaf hbit)
  rw [hplug, hlayers] at hremove
  rw [← maskId_of_lt ht] at hok
  obtain ⟨hok', hsame⟩ := idrRemove_shrunk hok
  rw [maskId_of_lt ht] at hsame
  exact ⟨hok', PutAt.of_same (SameIds.refl _ _) (PutAt.again hput (hremove hl.hi)) hsame⟩

lemma IdaOk.without (h : IdaOk ida) {i : ℕ} (hidr : IdrOk IdaLeaf ida'.idr)
    (hp : PutAt i false y ida.idr.layers ida.idr.top ida'.idr.layers ida'.idr.top) (hy : ChunkOk false y)
    (hbits : chunkBits y = update (chunkBits (ida.chunk i)) k false) :
    IdaOk ida' ∧ idaIds ida' = idaIds ida \ {i * idaBitmapBits L + k} := by
  have hids : idaIds ida' = idaIds ida \ {i * idaBitmapBits L + k} := by
    ext j
    rw [mem_idaIds_put hp hbits, Set.mem_sdiff, Set.mem_singleton_iff]
    split_ifs with hj <;> simp [hj]
  refine ⟨⟨hidr, chunks_put h hp hy, fun j hj => h.small j ?_⟩, hids⟩
  rw [hids] at hj
  exact hj.1

lemma idaRemove_spec (h : IdaOk ida) {id : CInt} (hid : id.toNat < 2 ^ 31)
    (hmem : id.toNat ∈ idaIds ida) :
    ∃ ida', idaRemove ida id = some ida' ∧ IdaOk ida' ∧ idaIds ida' = idaIds ida \ {id.toNat} := by
  have hc := idaChunk_toNat (L := L) hid
  have hle := Nat.div_le_self id.toNat (idaBitmapBits L)
  have ht : (idaChunk L id).toNat < 2 ^ 31 := by omega
  have heq : (idaChunk L id).toNat * idaBitmapBits L + idaOffset L id = id.toNat := by
    rw [hc, idaOffset_val hid]
    exact Nat.div_add_mod' _ _
  have hbit : chunkBits (ida.chunk (idaChunk L id).toNat) (idaOffset L id) = true := by
    rw [← mem_idaIds, heq]
    exact hmem
  obtain ⟨bitmap, hchunk⟩ : ∃ bitmap, ida.chunk (idaChunk L id).toNat = .leaf bitmap := by
    cases hs : ida.chunk (idaChunk L id).toNat with
    | leaf bitmap => exact ⟨bitmap, rfl⟩
    | null => simp [hs, chunkBits] at hbit
    | node _ _ => simp [hs, chunkBits] at hbit
  rw [hchunk] at hbit
  replace hbit : bitmap.bitmap (idaOffset L id) = true := hbit
  obtain ⟨pa, info, ary, hdown, hary, hl, hput⟩ := idaRemove_leaf h ht hchunk
  have hcount := bitCount_clear hbit
  have hbusy := h.chunks (idaChunk L id).toNat
  rw [hchunk] at hbusy
  have hnr : bitmap.nrBusy - 1 = bitCount (update bitmap.bitmap (idaOffset L id) false) := by
    rw [hbusy.1, ← hcount]
    push_cast
    ring
  obtain ⟨hl', hput'⟩ := hl.put ⟨bitmap.nrBusy - 1, update bitmap.bitmap (idaOffset L id) false⟩
    info.count <| by
      rw [slotCount_update_eq _ _ (by simp only [hary]; rfl)]
      exact hl.ok.1.2.count
  have hput2 := PutAt.again hput hput'
  unfold idaRemove
  simp only [hdown, idIndex_eq 0 ht, hary, hbit, if_true]
  by_cases h0 : bitmap.nrBusy - 1 = 0
  · rw [if_pos h0]
    obtain ⟨hidr, hgone⟩ := hl'.removeBitmap (update_self _ _ _) rfl
    have hnone := bitCount_eq_zero (by exact_mod_cast hnr.symm.trans h0)
    refine ⟨_, rfl, ?_⟩
    rw [← heq]
    refine h.without (y := .null) (by rw [freeBitmap_idr]; exact hidr) ?_ rfl
      (by rw [hchunk]; exact (funext hnone).symm)
    rw [freeBitmap_idr]
    exact PutAt.again hput2 hgone
  · rw [if_neg h0]
    refine ⟨_, rfl, ?_⟩
    rw [← heq]
    refine h.without hl'.idrOk hput2 ⟨hnr, ?_⟩ (by rw [hchunk]; rfl)
    simp only [Bool.false_eq_true, false_iff]
    intro hfull
    have hall := bitCount_eq_all.1 (by exact_mod_cast hnr.symm.trans hfull) (idaOffset L id)
    rw [update_self] at hall
    cases hall

inductive IdaCall (L : LongSize) where
    | preGet (avail : ℕ) (bitmap : Option (IdaBitmap L))
  | getNewAbove (startingId : CInt)
  | remove (id : CInt)

def IdaCall.exec : IdaCall L → Ida L → Set ℕ → Option (Ida L × Set ℕ)
  | .preGet avail bitmap, ida, ids => some ((idaPreGet avail bitmap ida).2, ids)
  | .getNewAbove startingId, ida, ids =>
    (idaGetNewAbove ida startingId).map fun
      | (.ok id, ida) => (ida, insert id.toNat ids)
      | (.error _, ida) => (ida, ids)
  | .remove id, ida, ids => (idaRemove ida id).map fun ida => (ida, ids \ {id.toNat})

def IdaCall.Ok (ids : Set ℕ) : IdaCall L → Prop
  | .preGet _ _ => True
  | .getNewAbove startingId => startingId.toNat < 2 ^ 31
  | .remove id => id.toNat ∈ ids

/-- The states that runs from `ida_init` reach. -/
inductive IdaReach : Ida L → Set ℕ → Prop
  | init : IdaReach idaInit ∅
  | step {ida ida' : Ida L} {ids ids' : Set ℕ} {c : IdaCall L} : IdaReach ida ids → c.Ok ids →
      c.exec ida ids = some (ida', ids') → IdaReach ida' ids'

lemma idaInit_ok : IdaOk (idaInit : Ida L) ∧ idaIds (idaInit : Ida L) = ∅ := by
  have hchunk : ∀ j, (idaInit : Ida L).chunk j = .null := by
    intro j
    rw [Ida.chunk, idaInit, idrInit, rootPtr, slotAt_null, ite_self]
  have hids : idaIds (idaInit : Ida L) = ∅ := by
    ext i
    simp only [idaIds, hchunk]
    exact ⟨fun h => by simp [chunkBits] at h, fun h => h.elim⟩
  refine ⟨⟨⟨LayerOk.null _, Nat.zero_le _, by simp [idaInit, idrInit], ⟨List.forall_mem_nil _, rfl⟩⟩,
    fun j => ?_, ?_⟩, hids⟩
  · rw [hchunk, Idr.used, idaInit, idrInit, rootUsed, usedAt, bitAt_null, Bool.and_false]
    rfl
  · rw [hids]
    exact fun _ h => h.elim

lemma idaPreGet_idr (avail : ℕ) (bitmap : Option (IdaBitmap L)) (ida : Ida L) :
    (idaPreGet avail bitmap ida).2.idr = (idrPreGet avail ida.idr).2 := by
  unfold idaPreGet
  cases bitmap with
  | none =>
    simp only
    split_ifs <;> rfl
  | some bitmap =>
    simp only
    split_ifs
    · rw [freeBitmap_idr]
    · rfl
    · rfl

lemma idaPreGet_ok (h : IdaOk ida) (avail : ℕ) (bitmap : Option (IdaBitmap L)) :
    IdaOk (idaPreGet avail bitmap ida).2 ∧ idaIds (idaPreGet avail bitmap ida).2 = idaIds ida := by
  refine h.same _ ?_ ?_
  · rw [idaPreGet_idr]
    exact ⟨h.idr.ok, h.idr.layers_le, h.idr.top, preGetLoop_spec h.idr.free⟩
  · rw [idaPreGet_idr]
    exact SameIds.refl _ _

lemma IdaReach.holds {ids : Set ℕ} (hr : IdaReach ida ids) :
    IdaOk ida ∧ idaIds ida = ids := by
  induction hr with
  | init => exact idaInit_ok
  | @step ida ida' ids ids' c _ hc he ih =>
    obtain ⟨hok, rfl⟩ := ih
    cases c with
    | preGet avail bitmap =>
      simp only [IdaCall.exec, Option.some.injEq, Prod.mk.injEq] at he
      obtain ⟨rfl, rfl⟩ := he
      exact idaPreGet_ok hok avail bitmap
    | getNewAbove startingId =>
      obtain ⟨⟨res, ida1⟩, hg, hpost⟩ := idaGetNewAbove_spec hok hc
      cases res with
      | error e =>
        simp only [IdaCall.exec, hg, Option.map_some, Option.some.injEq, Prod.mk.injEq] at he
        obtain ⟨rfl, rfl⟩ := he
        exact hpost.2
      | ok id =>
        simp only [IdaCall.exec, hg, Option.map_some, Option.some.injEq, Prod.mk.injEq] at he
        obtain ⟨rfl, rfl⟩ := he
        exact hpost.2
    | remove id =>
      obtain ⟨ida1, hg, hpost⟩ := idaRemove_spec hok (hok.small _ hc) hc
      simp only [IdaCall.exec, hg, Option.map_some, Option.some.injEq, Prod.mk.injEq] at he
      obtain ⟨rfl, rfl⟩ := he
      exact hpost

/-- An IDA is a set of ids: a new id is the least one from the start on that is not in it, a failing
call changes no id, and every bitmap is counted and marked full as its bits are. -/
theorem ida_represents_set {ida : Ida L} {ids : Set ℕ} (hr : IdaReach ida ids) :
    idaIds ida = ids
      ∧ (∀ start : CInt, start.toNat < 2 ^ 31 → ∃ res ida', idaGetNewAbove ida start = some (res, ida')
        ∧ match res with
          | .ok id => IsLeast { i | start.toNat ≤ i ∧ i ∉ ids } id.toNat ∧ idaIds ida' = insert id.toNat ids
          | .error e => (e = -EAGAIN ∨ e = -ENOSPC) ∧ idaIds ida' = ids)
      ∧ (∀ id : CInt, id.toNat ∈ ids → ∃ ida', idaRemove ida id = some ida' ∧ idaIds ida' = ids \ {id.toNat})
      ∧ ∀ j bitmap, ida.chunk j = .leaf bitmap → bitmap.nrBusy = bitCount bitmap.bitmap
        ∧ (ida.idr.used j = true ↔ bitmap.nrBusy = idaBitmapBits L) := by
  obtain ⟨hok, rfl⟩ := hr.holds
  refine ⟨rfl, fun start hs => ?_, fun id hid => ?_, fun j bitmap hj => ?_⟩
  · obtain ⟨⟨res, ida'⟩, he, hpost⟩ := idaGetNewAbove_spec hok hs
    refine ⟨res, ida', he, ?_⟩
    cases res with
    | error e => exact ⟨hpost.1, hpost.2.2⟩
    | ok id => exact ⟨hpost.1, hpost.2.2⟩
  · obtain ⟨ida', he, -, hids⟩ := idaRemove_spec hok (hok.small _ hid) hid
    exact ⟨ida', he, hids⟩
  · have := hok.chunks j
    rwa [hj] at this

theorem ida_represents_set_five :
    ∃ ida ida' : Ida .long64, IdaReach ida ∅ ∧ idaGetNewAbove ida 5#32 = some (.ok 5#32, ida')
      ∧ idaIds ida' = {5} := by
  have hr : IdaReach (L := .long64) _ ∅ :=
    .step (c := .preGet 12 (some ⟨0, fun _ => false⟩)) .init trivial rfl
  obtain ⟨-, hget, -⟩ := ida_represents_set hr
  obtain ⟨res, ida', he, hres⟩ := hget 5#32 (by decide)
  have hid := congrArg (Option.map fun r => r.1.toOption) he
  have hres5 := (Eq.symm hid).trans (show _ = some (some 5#32) by decide +kernel)
  cases res with
  | error e => cases Option.some.inj hres5
  | ok id =>
    obtain rfl : id = 5#32 := Option.some.inj (Option.some.inj hres5)
    refine ⟨_, ida', hr, he, ?_⟩
    rw [hres.2, insert_empty_eq]
    rfl

end LinuxKernel.Lib
