import LinuxKernel.Swap
import Mathlib.Data.List.Basic
import Mathlib.Tactic.Ring
import Mathlib.Tactic.SplitIfs

/-!
# Swap counts count the references

The bytes that hold the count of a slot are digits: the one in `swap_map` counts to 62, those in the
continuation pages to 127, and a flag in each says whether the next one belongs to the count. Both
directions are proved by induction on the walk to the first digit that can change.
-/

namespace LinuxKernel.Mm

open Function

variable {c : BitVec 8} {page : ℕ → Option ContPage}

lemma byte_eq_iff {b c : BitVec 8} : b = c ↔ b.toNat = c.toNat := BitVec.toNat_inj.symm

@[simp] lemma byte_zero_toNat : (0 : BitVec 8).toNat = 0 := rfl
@[simp] lemma byte_one_toNat : (1 : BitVec 8).toNat = 1 := rfl
@[simp] lemma swapMapMax_toNat : swapMapMax.toNat = 62 := rfl
@[simp] lemma swapMapBad_toNat : swapMapBad.toNat = 63 := rfl
@[simp] lemma swapHasCache_toNat : swapHasCache.toNat = 64 := rfl
@[simp] lemma swapContMax_toNat : swapContMax.toNat = 127 := rfl
@[simp] lemma countContinued_toNat : countContinued.toNat = 128 := rfl
@[simp] lemma swapMapShmem_toNat : swapMapShmem.toNat = 191 := rfl
@[simp] lemma contMax_or_continued_toNat : (swapContMax ||| countContinued).toNat = 255 := rfl
@[simp] lemma mapMax_or_continued_toNat : (swapMapMax ||| countContinued).toNat = 190 := rfl

lemma countPart_toNat (b : BitVec 8) :
    (b &&& ~~~swapHasCache).toNat = b.toNat % 64 + b.toNat / 128 * 128 := by
  revert b; decide +kernel

lemma cachePart_toNat (b : BitVec 8) :
    (b &&& swapHasCache).toNat = b.toNat / 64 % 2 * 64 := by revert b; decide +kernel

lemma digitPart_toNat (b : BitVec 8) : (b &&& ~~~countContinued).toNat = b.toNat % 128 := by
  revert b; decide +kernel

lemma flagPart_toNat (b : BitVec 8) :
    (b &&& countContinued).toNat = b.toNat / 128 * 128 := by revert b; decide +kernel

lemma or_cachePart_toNat (hc : c.toNat / 64 % 2 = 0) (b : BitVec 8) :
    (c ||| (b &&& swapHasCache)).toNat = c.toNat + b.toNat / 64 % 2 * 64 := by
  have h0 : ∀ c : BitVec 8, (c ||| 0).toNat = c.toNat := by decide +kernel
  have h1 : ∀ c : BitVec 8, c.toNat / 64 % 2 = 0 → (c ||| swapHasCache).toNat = c.toNat + 64 := by
    decide +kernel
  have hcase : b &&& swapHasCache = 0 ∨ b &&& swapHasCache = swapHasCache := by
    revert b; decide +kernel
  have hb := cachePart_toNat b
  rcases hcase with h | h
  · rw [h] at hb ⊢
    rw [h0]
    simp only [byte_zero_toNat] at hb
    omega
  · rw [h] at hb ⊢
    rw [h1 c hc]
    simp only [swapHasCache_toNat] at hb
    omega

section

def contCount : List (BitVec 8) → ℕ
  | [] => 0
  | d :: ds => d.toNat % 128 + if 128 ≤ d.toNat then 128 * contCount ds else 0

/-- The digits of a count end, and not with a zero. -/
def ContOk : List (BitVec 8) → Prop
  | [] => False
  | d :: ds => if 128 ≤ d.toNat then ContOk ds else 0 < d.toNat

def Room : List (BitVec 8) → Prop
  | [] => False
  | d :: ds => if d.toNat = 255 then Room ds else d.toNat = 127 → ds ≠ []

variable {d : BitVec 8} {ds ds' : List (BitVec 8)}

lemma contCount_flag (h : 128 ≤ d.toNat) :
    contCount (d :: ds) = d.toNat % 128 + 128 * contCount ds := by rw [contCount, if_pos h]

lemma contCount_last (h : d.toNat < 128) : contCount (d :: ds) = d.toNat := by
  rw [contCount, if_neg (by omega)]
  omega

lemma ContOk.flag (h : 128 ≤ d.toNat) : ContOk (d :: ds) ↔ ContOk ds := by rw [ContOk, if_pos h]

lemma ContOk.last (h : d.toNat < 128) : ContOk (d :: ds) ↔ 0 < d.toNat := by
  rw [ContOk, if_neg (by omega)]

lemma ContOk.pos : ∀ {ds : List (BitVec 8)}, ContOk ds → 0 < contCount ds
  | d :: ds, h => by
    by_cases hd : 128 ≤ d.toNat
    · have := ((ContOk.flag hd).mp h).pos
      rw [contCount_flag hd]
      omega
    · rw [contCount_last (by omega)]
      exact (ContOk.last (by omega)).mp h

/-- The digits `ds'` stand for the same count as `ds`, if `ds` stands for one. -/
def Keeps (ds ds' : List (BitVec 8)) : Prop :=
  ContOk ds → ContOk ds' ∧ contCount ds' = contCount ds

lemma Keeps.refl (ds : List (BitVec 8)) : Keeps ds ds := fun h => ⟨h, rfl⟩

lemma keeps_append : ∀ ds es : List (BitVec 8), Keeps ds (ds ++ es)
  | [], _ => fun h => h.elim
  | d :: ds, es => by
    intro h
    rw [List.cons_append]
    by_cases hd : 128 ≤ d.toNat
    · obtain ⟨hok, hcount⟩ := keeps_append ds es ((ContOk.flag hd).mp h)
      rw [contCount_flag hd, contCount_flag hd, hcount]
      exact ⟨(ContOk.flag hd).mpr hok, rfl⟩
    · rw [contCount_last (by omega), contCount_last (by omega)]
      exact ⟨(ContOk.last (by omega)).mpr ((ContOk.last (by omega)).mp h), rfl⟩

end

section

def bytesAt (offset : ℕ) (pages : List ContPage) : List (BitVec 8) := pages.map (· offset)

variable (offset : ℕ)

@[simp] lemma bytesAt_cons (page : ContPage) (pages : List ContPage) :
    bytesAt offset (page :: pages) = page offset :: bytesAt offset pages := rfl

@[simp] lemma bytesAt_nil : bytesAt offset [] = [] := rfl

/-- Both lists agree but at one offset. -/
def AgreeOff (pages pages' : List ContPage) : Prop :=
  ∀ j, j ≠ offset → bytesAt j pages' = bytesAt j pages

variable {offset}

lemma AgreeOff.refl (pages : List ContPage) : AgreeOff offset pages pages := fun _ _ => rfl

lemma AgreeOff.cons {pages pages' : List ContPage} (h : AgreeOff offset pages pages')
    (page : ContPage) (x : BitVec 8) :
    AgreeOff offset (page :: pages) (update page offset x :: pages') := by
  intro j hj
  rw [bytesAt_cons, bytesAt_cons, h j hj, update_of_ne hj]

variable (offset)

lemma incrementFrom_spec : ∀ (prev pages : List ContPage), ContOk (bytesAt offset pages) →
    (incrementFrom offset prev pages = some none ∧ ¬ Room (bytesAt offset pages)) ∨
    ∃ pages', incrementFrom offset prev pages = some (some (rewindIncrement offset prev pages'))
      ∧ ContOk (bytesAt offset pages')
      ∧ contCount (bytesAt offset pages') = contCount (bytesAt offset pages) + 1
      ∧ AgreeOff offset pages pages'
  | _, [], h => h.elim
  | prev, page :: next, h => by
    rw [bytesAt_cons] at h ⊢
    rw [incrementFrom.eq_def, Room]
    simp only
    have hlt := (page offset).isLt
    by_cases h255 : page offset = swapContMax ||| countContinued
    · have hd : (page offset).toNat = 255 := by rw [h255]; rfl
      rw [if_pos h255, if_pos hd]
      have hok := (ContOk.flag (by omega)).mp h
      rcases incrementFrom_spec (page :: prev) next hok with hfail | ⟨next', heq, hok', hcount, hag⟩
      · exact .inl hfail
      refine .inr ⟨_, heq, ?_, ?_, hag.cons page countContinued⟩
      · rw [bytesAt_cons, update_self, ContOk.flag (by simp)]
        exact hok'
      · rw [bytesAt_cons, update_self, contCount_flag (by simp),
          contCount_flag (by omega), hcount, hd, countContinued_toNat]
        ring
    · have hd : (page offset).toNat ≠ 255 := fun h => h255 (byte_eq_iff.mpr h)
      rw [if_neg h255, if_neg hd]
      by_cases h127 : page offset = swapContMax
      · have hd' : (page offset).toNat = 127 := by rw [h127]; rfl
        rw [if_pos h127]
        cases next with
        | nil => exact .inl ⟨rfl, fun hroom => hroom hd' rfl⟩
        | cons page' next =>
          refine .inr ⟨_, rfl, ?_, ?_, ((AgreeOff.refl next).cons page' 1).cons page countContinued⟩
          · rw [bytesAt_cons, bytesAt_cons, update_self, update_self,
              ContOk.flag (by simp), ContOk.last (by decide)]
            decide
          · rw [bytesAt_cons, bytesAt_cons, update_self, update_self,
              contCount_flag (by simp), contCount_last (by decide), contCount_last (by omega), hd']
            rfl
      · have hd' : (page offset).toNat ≠ 127 := fun h => h127 (byte_eq_iff.mpr h)
        have hsucc : (page offset + 1).toNat = (page offset).toNat + 1 := by
          rw [BitVec.toNat_add]
          exact Nat.mod_eq_of_lt (by simp; omega)
        rw [if_neg h127]
        refine .inr ⟨_, rfl, ?_, ?_, (AgreeOff.refl next).cons page _⟩
        · rw [bytesAt_cons, update_self]
          by_cases hflag : 128 ≤ (page offset).toNat
          · rw [ContOk.flag (by omega)]
            exact (ContOk.flag hflag).mp h
          · rw [ContOk.last (by omega)]
            omega
        · rw [bytesAt_cons, update_self]
          by_cases hflag : 128 ≤ (page offset).toNat
          · rw [contCount_flag (by omega), contCount_flag hflag, hsucc]
            omega
          · rw [contCount_last (by omega), contCount_last (by omega), hsucc]

lemma decrementFrom_spec : ∀ (prev pages : List ContPage), ContOk (bytesAt offset pages) →
    ∃ pages' count,
      decrementFrom offset prev pages = some (rewindDecrement offset count prev pages')
      ∧ AgreeOff offset pages pages' ∧ (count = countContinued ∧ ContOk (bytesAt offset pages')
            ∧ contCount (bytesAt offset pages) = contCount (bytesAt offset pages') + 1
          ∨ count = 0 ∧ contCount (bytesAt offset pages) = 1)
  | _, [], h => h.elim
  | prev, page :: next, h => by
    rw [bytesAt_cons] at h ⊢
    rw [decrementFrom]
    have hlt := (page offset).isLt
    by_cases h128 : page offset = countContinued
    · have hd : (page offset).toNat = 128 := by rw [h128]; rfl
      rw [if_pos h128, contCount_flag (by omega), hd]
      have hok := (ContOk.flag (by omega)).mp h
      obtain ⟨next', count, heq, hag, hcase⟩ := decrementFrom_spec (page :: prev) next hok
      refine ⟨_, _, heq, hag.cons page _, .inl ⟨rfl, ?_⟩⟩
      rw [bytesAt_cons, update_self]
      rcases hcase with ⟨rfl, hok', hcount⟩ | ⟨rfl, hcount⟩
      · rw [ContOk.flag (by simp), contCount_flag (by simp), contMax_or_continued_toNat, hcount]
        exact ⟨hok', by ring⟩
      · rw [ContOk.last (by decide), contCount_last (by decide), hcount]
        decide
    · have hd : (page offset).toNat ≠ 128 := fun h => h128 (byte_eq_iff.mpr h)
      have hpos : 0 < (page offset).toNat := by
        by_cases hflag : 128 ≤ (page offset).toNat
        · omega
        · exact (ContOk.last (by omega)).mp h
      have hne : page offset ≠ 0 := fun h0 => by simp [h0] at hpos
      have hpred : (page offset - 1).toNat = (page offset).toNat - 1 := by
        rw [BitVec.toNat_sub]
        simp only [byte_one_toNat]
        omega
      rw [if_neg h128, if_neg hne]
      refine ⟨_, _, rfl, (AgreeOff.refl next).cons page _, ?_⟩
      rw [bytesAt_cons, update_self]
      by_cases h1 : (page offset).toNat = 1
      · have h0 : page offset - 1 = 0 := BitVec.eq_of_toNat_eq (by rw [hpred, h1]; rfl)
        rw [if_pos h0, contCount_last (by omega)]
        exact .inr ⟨rfl, h1⟩
      have h0 : page offset - 1 ≠ 0 := fun h0 => by
        rw [h0] at hpred
        simp only [byte_zero_toNat] at hpred
        omega
      rw [if_neg h0]
      refine .inl ⟨rfl, ?_⟩
      by_cases hflag : 128 ≤ (page offset).toNat
      · rw [ContOk.flag (by omega), contCount_flag hflag, contCount_flag (by omega), hpred]
        exact ⟨(ContOk.flag hflag).mp h, by omega⟩
      · rw [ContOk.last (by omega), contCount_last (by omega), contCount_last (by omega), hpred]
        omega

lemma lacksPage_spec : ∀ (count : BitVec 8) (pages : List ContPage) (page : ContPage),
    128 ≤ count.toNat → ContOk (bytesAt offset pages) →
    Room (bytesAt offset (if lacksPage offset count pages then pages ++ [page] else pages))
  | _, [], _, _, h => h.elim
  | count, p :: next, page, hcount, h => by
    rw [bytesAt_cons] at h
    have hflag : ¬ (count &&& countContinued = 0) := fun h0 => by
      have := flagPart_toNat count
      rw [h0, byte_zero_toNat] at this
      omega
    have hdigit := digitPart_toNat (p offset)
    have hlt := (p offset).isLt
    rw [lacksPage, if_neg hflag]
    by_cases hmax : p offset &&& ~~~countContinued = swapContMax
    · rw [if_neg (not_not.mpr hmax)]
      rw [hmax, swapContMax_toNat] at hdigit
      by_cases h255 : (p offset).toNat = 255
      · have ih := lacksPage_spec (p offset) next page (by omega) ((ContOk.flag (by omega)).mp h)
        split_ifs at ih ⊢
        · rw [List.cons_append, bytesAt_cons, Room, if_pos h255]
          exact ih
        · rw [bytesAt_cons, Room, if_pos h255]
          exact ih
      · -- the digits end here, with the page only if it is the last one
        cases next with
        | nil =>
          rw [lacksPage, if_pos rfl, List.cons_append, bytesAt_cons, Room, if_neg h255]
          exact fun _ => by simp [bytesAt]
        | cons q next =>
          have hlast : p offset &&& countContinued = 0 := by
            rw [byte_eq_iff, flagPart_toNat, byte_zero_toNat]
            omega
          rw [lacksPage, if_pos hlast, if_neg Bool.false_ne_true, bytesAt_cons, Room, if_neg h255]
          exact fun _ => by simp
    · have : (p offset).toNat ≠ 255 ∧ (p offset).toNat ≠ 127 := by
        constructor <;> intro h' <;> apply hmax <;> apply BitVec.eq_of_toNat_eq <;>
          rw [hdigit, h'] <;> rfl
      rw [if_pos hmax]
      simp only [Bool.false_eq_true, if_false, bytesAt_cons, Room, if_neg this.1]
      exact fun h' => (this.2 h').elim

end

section

variable (pageSize : ℕ) (si : SwapInfo)

def contBytes (offset : ℕ) : List (BitVec 8) :=
  bytesAt (offset % pageSize) ((si.cont (offset / pageSize)).getD [])

def swapCount (offset : ℕ) : ℕ :=
  (si.swapMap offset).toNat % 64 +
    if 128 ≤ (si.swapMap offset).toNat then 63 * contCount (contBytes pageSize si offset) else 0

/-- The slot is marked as bad. -/
def SwapInfo.Bad (offset : ℕ) : Prop := si.swapMap offset &&& ~~~swapHasCache = swapMapBad

instance (offset : ℕ) : Decidable (si.Bad offset) := inferInstanceAs (Decidable (_ = _))

structure SlotOk (offset : ℕ) : Prop where
  unshared : (si.swapMap offset).toNat % 64 = 63 → (si.swapMap offset).toNat < 128
  digits : 128 ≤ (si.swapMap offset).toNat → ContOk (contBytes pageSize si offset)

structure Touches (si si' : SwapInfo) (offset : ℕ) : Prop where
  used : si'.used = si.used
  max : si'.max = si.max
  map : ∀ j, j ≠ offset → si'.swapMap j = si.swapMap j
  bytes : ∀ j, j ≠ offset → Keeps (contBytes pageSize si j) (contBytes pageSize si' j)
  listed : (∀ head, si.cont head ≠ some []) → ∀ head, si'.cont head ≠ some []

variable {pageSize si} {si' : SwapInfo} {offset j : ℕ}

lemma SlotOk.bad_iff (h : SlotOk pageSize si offset) :
    si.Bad offset ↔ (si.swapMap offset).toNat % 64 = 63 := by
  have := h.unshared
  rw [SwapInfo.Bad, byte_eq_iff, countPart_toNat, swapMapBad_toNat]
  omega

lemma Touches.refl : Touches pageSize si si offset :=
  ⟨rfl, rfl, fun _ _ => rfl, fun _ _ => Keeps.refl _, fun h => h⟩

lemma Keeps.trans {ds ds' ds'' : List (BitVec 8)} (h : Keeps ds ds') (h' : Keeps ds' ds'') :
    Keeps ds ds'' := fun hok => ⟨(h' (h hok).1).1, (h' (h hok).1).2.trans (h hok).2⟩

lemma Touches.trans {si'' : SwapInfo} (h : Touches pageSize si si' offset)
    (h' : Touches pageSize si' si'' offset) : Touches pageSize si si'' offset :=
  ⟨h'.used.trans h.used, h'.max.trans h.max, fun j hj => (h'.map j hj).trans (h.map j hj),
    fun j hj => (h.bytes j hj).trans (h'.bytes j hj), fun hl => h'.listed (h.listed hl)⟩

lemma Touches.setMap (h : Touches pageSize si si' offset) (x : BitVec 8) :
    Touches pageSize si (si'.setMap offset x) offset :=
  ⟨h.used, h.max, fun j hj => (update_of_ne hj _ _).trans (h.map j hj), h.bytes, h.listed⟩

lemma Touches.release (h : Touches pageSize si si' offset) :
    Touches pageSize si (si'.release offset) offset :=
  ⟨h.used, h.max, h.map, h.bytes, h.listed⟩

lemma contBytes_setCont (pages : List ContPage) (j : ℕ) :
    contBytes pageSize (si.setCont (offset / pageSize) pages) j =
      if j / pageSize = offset / pageSize then bytesAt (j % pageSize) pages
      else contBytes pageSize si j := by
  simp only [contBytes, SwapInfo.setCont, update_apply]
  split_ifs <;> rfl

lemma contBytes_setCont_self (pages : List ContPage) :
    contBytes pageSize (si.setCont (offset / pageSize) pages) offset =
      bytesAt (offset % pageSize) pages := by rw [contBytes_setCont, if_pos rfl]

lemma mod_ne_of_div_eq (hj : j ≠ offset) (h : j / pageSize = offset / pageSize) :
    j % pageSize ≠ offset % pageSize := by
  intro hmod
  apply hj
  rw [← Nat.div_add_mod j pageSize, ← Nat.div_add_mod offset pageSize, h, hmod]

variable {pages : List ContPage} {k n : ℕ}

lemma Touches.setCont (hne : pages ≠ []) (h : ∀ j, j ≠ offset % pageSize →
      Keeps (bytesAt j ((si.cont (offset / pageSize)).getD [])) (bytesAt j pages)) :
    Touches pageSize si (si.setCont (offset / pageSize) pages) offset := by
  refine ⟨rfl, rfl, fun _ _ => rfl, fun j hj => ?_, fun hlisted head => ?_⟩
  · rw [contBytes_setCont]
    split_ifs with hhead
    · rw [contBytes, hhead]
      exact h _ (mod_ne_of_div_eq hj hhead)
    · exact Keeps.refl _
  · simp only [SwapInfo.setCont, update_apply]
    split_ifs
    · simpa using hne
    · exact hlisted head

lemma AgreeOff.keeps {pages' : List ContPage} (h : AgreeOff k pages pages') (j : ℕ)
    (hj : j ≠ k) : Keeps (bytesAt j pages) (bytesAt j pages') := by
  rw [h j hj]
  exact Keeps.refl _

lemma ContOk.ne_nil (h : ContOk (bytesAt k pages)) :
    pages ≠ [] := by
  rintro rfl
  exact h

lemma Touches.slotOk (h : Touches pageSize si si' offset) (hj : j ≠ offset)
    (hok : SlotOk pageSize si j) : SlotOk pageSize si' j := by
  constructor
  · rw [h.map j hj]
    exact hok.unshared
  · rw [h.map j hj]
    exact fun hflag => (h.bytes j hj (hok.digits hflag)).1

lemma Touches.swapCount_eq (h : Touches pageSize si si' offset) (hj : j ≠ offset)
    (hok : SlotOk pageSize si j) : swapCount pageSize si' j = swapCount pageSize si j := by
  rw [swapCount, swapCount, h.map j hj]
  split_ifs with hflag
  · rw [(h.bytes j hj (hok.digits hflag)).2]
  · rfl

lemma Touches.bad_iff (h : Touches pageSize si si' offset) (hj : j ≠ offset) :
    si'.Bad j ↔ si.Bad j := by rw [SwapInfo.Bad, SwapInfo.Bad, h.map j hj]

structure Counted (pageSize : ℕ) (si si' : SwapInfo) (offset n : ℕ) : Prop where
  touches : Touches pageSize si si' offset
  ok : SlotOk pageSize si' offset
  good : ¬ si'.Bad offset
  count : swapCount pageSize si' offset = n
  cache : si'.swapMap offset &&& swapHasCache = si.swapMap offset &&& swapHasCache

lemma counted_setMap (h : Touches pageSize si si' offset)
    (hcache : c.toNat / 64 % 2 = 0) (hlow : c.toNat % 64 < 63)
    (hdigits : 128 ≤ c.toNat → ContOk (contBytes pageSize si' offset))
    (hn : n = c.toNat % 64 +
      if 128 ≤ c.toNat then 63 * contCount (contBytes pageSize si' offset) else 0) :
    Counted pageSize si (si'.setMap offset
    (c ||| (si.swapMap offset &&& swapHasCache))) offset n := by
  have hb := or_cachePart_toNat hcache (si.swapMap offset)
  have hflag : 128 ≤ (c ||| (si.swapMap offset &&& swapHasCache)).toNat ↔ 128 ≤ c.toNat := by omega
  have hself : (si'.setMap offset (c ||| (si.swapMap offset &&& swapHasCache))).swapMap offset =
      c ||| (si.swapMap offset &&& swapHasCache) := update_self ..
  have hok : SlotOk pageSize
      (si'.setMap offset (c ||| (si.swapMap offset &&& swapHasCache))) offset := by
    constructor
    · rw [hself]
      omega
    · rw [hself, hflag]
      exact hdigits
  refine ⟨h.setMap _, hok, ?_, ?_, ?_⟩
  · rw [hok.bad_iff, hself]
    omega
  · rw [swapCount, hself, hn]
    simp only [hflag]
    congr 1
    omega
  · rw [hself, byte_eq_iff, cachePart_toNat, cachePart_toNat]
    omega

lemma Counted.storeUsage {x : BitVec 8}
    (h : Counted pageSize si (si'.setMap offset x) offset n) :
    Counted pageSize si (storeUsage si' offset x).1 offset n := by
  rw [Mm.storeUsage]
  split_ifs with h0
  · exact ⟨h.touches.release, ⟨h.ok.unshared, h.ok.digits⟩, h.good, h.count, h.cache⟩
  · exact h

end

section

variable {pageSize : ℕ} {si : SwapInfo} {offset : ℕ}

variable {si' : SwapInfo} {pages : List ContPage}

/-- Whether `swap_count_continued` can carry: into a page, or into a digit of the count. -/
def HasRoom (pageSize : ℕ) (si : SwapInfo) (offset : ℕ) : Prop :=
  if 128 ≤ (si.swapMap offset).toNat then Room (contBytes pageSize si offset)
  else si.cont (offset / pageSize) ≠ none

lemma contBytes_eq (h : si.cont (offset / pageSize) = some pages) :
    contBytes pageSize si offset = bytesAt (offset % pageSize) pages := by
  rw [contBytes, h]
  rfl

lemma exists_pages (h : ContOk (contBytes pageSize si offset)) :
    ∃ page next, si.cont (offset / pageSize) = some (page :: next) := by
  cases hcont : si.cont (offset / pageSize) with
  | none =>
    rw [contBytes, hcont] at h
    exact h.elim
  | some pages =>
    rw [contBytes_eq hcont] at h
    cases pages with
    | nil => exact h.elim
    | cons page next => exact ⟨page, next, rfl⟩

lemma swapCountContinued_up (hlisted : ∀ head, si.cont head ≠ some [])
    (hok : SlotOk pageSize si offset) (hflag : 128 ≤ c.toNat ↔ 128 ≤ (si.swapMap offset).toNat)
    (hmax : c.toNat % 128 = 62) :
    (swapCountContinued pageSize si offset c = some (si, false) ∧ ¬ HasRoom pageSize si offset) ∨
    ∃ si', swapCountContinued pageSize si offset c = some (si', true)
      ∧ Touches pageSize si si' offset ∧ ContOk (contBytes pageSize si' offset)
      ∧ contCount (contBytes pageSize si' offset) =
        (if 128 ≤ c.toNat then contCount (contBytes pageSize si offset) else 0) + 1 := by
  simp only [HasRoom, ← hflag]
  by_cases h : 128 ≤ c.toNat
  · -- the count is continued already: carry into its digits
    have hc : c = swapMapMax ||| countContinued := by
      rw [byte_eq_iff, mapMax_or_continued_toNat]
      omega
    have hne : c ≠ swapMapMax := by
      rw [Ne, byte_eq_iff, swapMapMax_toNat]
      omega
    have hdigits := hok.digits (hflag.mp h)
    obtain ⟨page, next, hcont⟩ := exists_pages hdigits
    rw [contBytes_eq hcont] at hdigits ⊢
    simp only [swapCountContinued, hcont, if_neg hne, if_pos hc, if_pos h]
    rcases incrementFrom_spec (offset % pageSize) [] (page :: next) hdigits with
      ⟨heq, hroom⟩ | ⟨pages', heq, hok', hcount, hagree⟩
    · rw [heq]
      exact .inl ⟨rfl, hroom⟩
    rw [heq]
    refine .inr ⟨_, rfl, .setCont hok'.ne_nil ?_, ?_⟩
    · rw [hcont]
      exact hagree.keeps
    · rw [rewindIncrement, contBytes_setCont_self]
      exact ⟨hok', hcount⟩
  · -- the first page gets the digit 1
    have hc : c = swapMapMax := by
      rw [byte_eq_iff, swapMapMax_toNat]
      omega
    have hunflag : ¬ (c &&& countContinued ≠ 0) := by
      rw [not_not, byte_eq_iff, flagPart_toNat, byte_zero_toNat]
      omega
    rw [if_neg h, if_neg h]
    cases hcont : si.cont (offset / pageSize) with
    | none =>
      simp only [swapCountContinued, hcont, if_neg hunflag]
      exact .inl ⟨trivial, fun hne => hne rfl⟩
    | some pages =>
      cases pages with
      | nil => exact (hlisted _ hcont).elim
      | cons page next =>
        simp only [swapCountContinued, hcont, if_pos hc]
        refine .inr ⟨_, rfl, .setCont (List.cons_ne_nil _ _) ?_, ?_⟩
        · rw [hcont]
          exact ((AgreeOff.refl next).cons page 1).keeps
        · rw [contBytes_setCont_self, bytesAt_cons, update_self, ContOk.last (by decide),
            contCount_last (by decide)]
          decide

lemma swapCountContinued_down (hdigits : ContOk (contBytes pageSize si offset)) :
    ∃ si' more, swapCountContinued pageSize si offset countContinued = some (si', more)
      ∧ Touches pageSize si si' offset ∧ (more = true ∧ ContOk (contBytes pageSize si' offset)
            ∧ contCount (contBytes pageSize si offset) =
              contCount (contBytes pageSize si' offset) + 1
          ∨ more = false ∧ contCount (contBytes pageSize si offset) = 1) := by
  obtain ⟨page, next, hcont⟩ := exists_pages hdigits
  rw [contBytes_eq hcont] at hdigits ⊢
  obtain ⟨pages', count, heq, hagree, hcase⟩ := decrementFrom_spec _ [] _ hdigits
  have hne : pages' ≠ [] := by
    rintro rfl
    have := congrArg List.length (hagree (offset % pageSize + 1) (by omega))
    simp [bytesAt] at this
  simp only [swapCountContinued, hcont, heq, rewindDecrement,
    if_neg (show countContinued ≠ swapMapMax
    by decide), if_neg (show countContinued ≠ swapMapMax ||| countContinued by decide),
    ne_eq, not_true_eq_false, if_false]
  refine ⟨_, _, rfl, .setCont hne ?_, ?_⟩
  · rw [hcont]
    exact hagree.keeps
  · rw [contBytes_setCont_self]
    rcases hcase with ⟨rfl, hok', hcount⟩ | ⟨rfl, hcount⟩
    · exact .inl ⟨by decide, hok', hcount⟩
    · exact .inr ⟨by decide, hcount⟩

structure NewCount (pageSize : ℕ) (si si' : SwapInfo) (offset : ℕ) (c : BitVec 8) (n : ℕ) :
    Prop where
  touches : Touches pageSize si si' offset
  cache : c.toNat / 64 % 2 = 0
  low : c.toNat % 64 < 63
  digits : 128 ≤ c.toNat → ContOk (contBytes pageSize si' offset)
  count : n = c.toNat % 64 +
    if 128 ≤ c.toNat then 63 * contCount (contBytes pageSize si' offset) else 0

lemma NewCount.counted {n : ℕ} (h : NewCount pageSize si si' offset c n) :
    Counted pageSize si (si'.setMap offset (c ||| (si.swapMap offset &&& swapHasCache))) offset n :=
  counted_setMap h.touches h.cache h.low h.digits h.count

lemma duplicateCount_one (hlisted : ∀ head, si.cont head ≠ some [])
    (hok : SlotOk pageSize si offset) :
    (∃ si' c, duplicateCount pageSize si offset 1 (si.swapMap offset &&& ~~~swapHasCache)
          (si.swapMap offset &&& swapHasCache) = some (si', c, .ok ())
        ∧ NewCount pageSize si si' offset c (swapCount pageSize si offset + 1)
        ∧ (si.swapMap offset).toNat % 64 ≠ 63) ∨
    ∃ err, duplicateCount pageSize si offset 1 (si.swapMap offset &&& ~~~swapHasCache)
        (si.swapMap offset &&& swapHasCache) =
          some (si, si.swapMap offset &&& ~~~swapHasCache, .error err)
      ∧ ((si.swapMap offset).toNat % 64 ≠ 63 → si.swapMap offset ≠ 0 →
          (si.swapMap offset).toNat % 64 = 62 ∧ ¬ HasRoom pageSize si offset ∧ err = .nomem) := by
  have hbyte := (si.swapMap offset).isLt
  have hc := countPart_toNat (si.swapMap offset)
  have hh := cachePart_toNat (si.swapMap offset)
  have hcd := digitPart_toNat (si.swapMap offset &&& ~~~swapHasCache)
  have hcount : swapCount pageSize si offset = (si.swapMap offset &&& ~~~swapHasCache).toNat % 64 +
      if 128 ≤ (si.swapMap offset &&& ~~~swapHasCache).toNat then
        63 * contCount (contBytes pageSize si offset) else 0 := by
    have hiff : 128 ≤ (si.swapMap offset &&& ~~~swapHasCache).toNat ↔
        128 ≤ (si.swapMap offset).toNat := by omega
    simp only [swapCount, hiff]
    omega
  have hdigits := hok.digits
  generalize si.swapMap offset &&& swapHasCache = h at *
  generalize hceq : si.swapMap offset &&& ~~~swapHasCache = c at *
  rw [duplicateCount]
  by_cases hused : c ≠ 0 ∨ h ≠ 0
  swap
  · rw [if_neg hused]
    refine .inr ⟨_, rfl, fun _ hne => (hused ?_).elim⟩
    by_contra hnone
    simp only [not_or, not_not, byte_eq_iff, byte_zero_toNat] at hnone
    exact hne (byte_eq_iff.mpr (by rw [byte_zero_toNat]; omega))
  rw [if_pos hused]
  simp only [BitVec.lt_def, hcd, swapMapMax_toNat]
  rcases Nat.lt_trichotomy (c.toNat % 128) 62 with hlt | heq | hgt
  · -- the digit in `swap_map` has room
    have hsucc : (c + 1).toNat = c.toNat + 1 := by
      rw [BitVec.toNat_add, byte_one_toNat]
      omega
    rw [if_pos hlt]
    refine .inl ⟨si, c + 1, rfl, ⟨.refl, by omega, by omega, fun hf => hdigits (by omega), ?_⟩,
      by omega⟩
    have hiff : 128 ≤ (c + 1).toNat ↔ 128 ≤ c.toNat := by omega
    rw [hcount]
    simp only [hiff]
    omega
  · rw [if_neg (by omega), if_neg (by omega)]
    rcases swapCountContinued_up hlisted hok (c := c) (by omega) heq with
      ⟨hcall, hroom⟩ | ⟨si', hcall, htouches, hdig', hcount'⟩
    · rw [hcall]
      exact .inr ⟨_, rfl, fun _ _ => ⟨by omega, hroom, rfl⟩⟩
    · rw [hcall]
      refine .inl ⟨si', _, rfl, ⟨htouches, by decide, by decide, fun _ => hdig', ?_⟩, by omega⟩
      rw [hcount, hcount', countContinued_toNat, if_pos le_rfl]
      split_ifs <;> omega
  · rw [if_neg (by omega), if_pos hgt]
    exact .inr ⟨_, rfl, fun hgood => by omega⟩

lemma setMap_parts : si.setMap offset ((si.swapMap offset &&& ~~~swapHasCache) |||
    (si.swapMap offset &&& swapHasCache)) = si := by
  have hc := countPart_toNat (si.swapMap offset)
  have hparts : (si.swapMap offset &&& ~~~swapHasCache) ||| (si.swapMap offset &&& swapHasCache) =
      si.swapMap offset := by
    rw [byte_eq_iff, or_cachePart_toNat (by omega)]
    omega
  rw [hparts, SwapInfo.setMap, update_eq_self]

lemma swapDuplicateUsage_one (hlisted : ∀ head, si.cont head ≠ some [])
    (hok : SlotOk pageSize si offset) :
    (∃ si', swapDuplicateUsage pageSize si offset 1 = some (si', .ok ())
        ∧ Counted pageSize si si' offset (swapCount pageSize si offset + 1)
        ∧ ¬ si.Bad offset ∧ offset < si.max) ∨
    ∃ err, swapDuplicateUsage pageSize si offset 1 = some (si, .error err)
      ∧ (offset < si.max → ¬ si.Bad offset → si.swapMap offset ≠ 0 →
          (si.swapMap offset).toNat % 64 = 62 ∧ ¬ HasRoom pageSize si offset ∧ err = .nomem) := by
  rw [swapDuplicateUsage, hok.bad_iff]
  by_cases hmax : si.max ≤ offset
  · rw [if_pos hmax]
    exact .inr ⟨_, rfl, fun h => by omega⟩
  rw [if_neg hmax]
  simp only [show ¬ ((1 : BitVec 8) = swapHasCache) by decide, if_false]
  rcases duplicateCount_one hlisted hok with ⟨si', c, hcall, hnew, hgood⟩ | ⟨err, hcall, hroom⟩
  · rw [hcall]
    exact .inl ⟨_, rfl, hnew.counted, hgood, by omega⟩
  · rw [hcall]
    refine .inr ⟨err, ?_, fun _ => hroom⟩
    simp only [setMap_parts]

lemma freeCount_spec (hok : SlotOk pageSize si offset) (hgood : ¬ si.Bad offset)
    (hpos : 0 < swapCount pageSize si offset) :
    ∃ si' c, freeCount pageSize si offset (si.swapMap offset &&& ~~~swapHasCache) = some (si', c)
      ∧ NewCount pageSize si si' offset c (swapCount pageSize si offset - 1) := by
  rw [hok.bad_iff] at hgood
  have hc := countPart_toNat (si.swapMap offset)
  have hcd := digitPart_toNat (si.swapMap offset &&& ~~~swapHasCache)
  have hdigits := hok.digits
  rw [swapCount] at hpos ⊢
  generalize hceq : si.swapMap offset &&& ~~~swapHasCache = c at *
  have hshmem : c ≠ swapMapShmem := by
    rw [Ne, byte_eq_iff, swapMapShmem_toNat]
    omega
  have hle : c &&& ~~~countContinued ≤ swapMapMax := by
    rw [BitVec.le_def, hcd, swapMapMax_toNat]
    omega
  rw [freeCount, if_neg hshmem, if_pos hle]
  by_cases hcont : c = countContinued
  · -- borrow from the continuation
    have hcn : c.toNat = 128 := by rw [hcont]; rfl
    obtain ⟨si', more, hcall, htouches, hcase⟩ := swapCountContinued_down (hdigits (by omega))
    rw [if_pos hcont, hcont, hcall]
    rw [if_pos (by omega : 128 ≤ (si.swapMap offset).toNat)]
    rcases hcase with ⟨rfl, hok', hcount⟩ | ⟨rfl, hcount⟩
    · refine ⟨si', _, rfl, htouches, by decide, by decide, fun _ => hok', ?_⟩
      rw [hcount, mapMax_or_continued_toNat, if_pos (by decide)]
      omega
    · refine ⟨si', _, rfl, htouches, by decide, by decide, fun h => absurd h (by decide), ?_⟩
      rw [hcount, swapMapMax_toNat, if_neg (by decide)]
      omega
  · have hne : c.toNat ≠ 128 := fun h => hcont (byte_eq_iff.mpr h)
    have hlow : 0 < (si.swapMap offset).toNat % 64 := by
      by_contra h0
      rw [if_neg (by omega)] at hpos
      omega
    have hpred : (c - 1).toNat = c.toNat - 1 := by
      rw [BitVec.toNat_sub, byte_one_toNat]
      omega
    have hiff : 128 ≤ (c - 1).toNat ↔ 128 ≤ (si.swapMap offset).toNat := by omega
    rw [if_neg hcont]
    refine ⟨si, _, rfl, .refl, by omega, by omega, fun h => hdigits (by omega), ?_⟩
    simp only [hiff]
    omega

lemma swapInfoGet_iff :
    swapInfoGet si offset = true ↔ si.used = true ∧ offset < si.max ∧ si.swapMap offset ≠ 0 := by
  rw [swapInfoGet, Bool.and_eq_true, Bool.and_eq_true, decide_eq_true_iff, decide_eq_true_iff,
    and_assoc]

lemma swapFree_spec (hok : SlotOk pageSize si offset) (hgood : ¬ si.Bad offset)
    (hpos : 0 < swapCount pageSize si offset) (hused : si.used = true) (hmax : offset < si.max) :
    ∃ si', swapFree pageSize si offset = some si'
      ∧ Counted pageSize si si' offset (swapCount pageSize si offset - 1) := by
  obtain ⟨si', c, hcall, hnew⟩ := freeCount_spec hok hgood hpos
  have hne : si.swapMap offset ≠ 0 := fun h0 => by
    rw [swapCount, h0, if_neg (by decide)] at hpos
    exact absurd hpos (by decide)
  have hget : swapInfoGet si offset = true := swapInfoGet_iff.mpr ⟨hused, hmax, hne⟩
  rw [swapFree, if_pos hget, swapEntryFree]
  simp only [show ¬ ((1 : BitVec 8) = swapHasCache) by decide, if_false, hcall, Option.map_some]
  exact ⟨_, rfl, hnew.counted.storeUsage⟩

/-- The counts are as before, the lists of continuation pages may be longer. -/
structure Extends (pageSize : ℕ) (si si' : SwapInfo) (offset : ℕ) : Prop where
  touches : Touches pageSize si si' offset
  map : si'.swapMap = si.swapMap
  keeps : Keeps (contBytes pageSize si offset) (contBytes pageSize si' offset)

lemma Extends.refl : Extends pageSize si si offset := ⟨.refl, rfl, .refl _⟩

lemma Extends.setCont (hne : pages ≠ [])
    (h : ∀ j, Keeps (bytesAt j ((si.cont (offset / pageSize)).getD [])) (bytesAt j pages)) :
    Extends pageSize si (si.setCont (offset / pageSize) pages) offset := by
  refine ⟨.setCont hne fun j _ => h j, rfl, ?_⟩
  rw [contBytes_setCont_self]
  exact h _

lemma Extends.slotOk (h : Extends pageSize si si' offset)
    (hok : SlotOk pageSize si offset) : SlotOk pageSize si' offset := by
  constructor
  · rw [h.map]
    exact hok.unshared
  · rw [h.map]
    exact fun hflag => (h.keeps (hok.digits hflag)).1

lemma Extends.swapCount_eq (h : Extends pageSize si si' offset)
    (hok : SlotOk pageSize si offset) :
    swapCount pageSize si' offset = swapCount pageSize si offset := by
  rw [swapCount, swapCount, h.map]
  split_ifs with hflag
  · rw [(h.keeps (hok.digits hflag)).2]
  · rfl

lemma Extends.bad_iff (h : Extends pageSize si si' offset) :
    si'.Bad offset ↔ si.Bad offset := by rw [SwapInfo.Bad, SwapInfo.Bad, h.map]

lemma Extends.counted {si' si'' : SwapInfo} {n : ℕ} (h : Extends pageSize si si' offset)
    (h' : Counted pageSize si' si'' offset n) : Counted pageSize si si'' offset n :=
  ⟨h.touches.trans h'.touches, h'.ok, h'.good, h'.count, by rw [h'.cache, h.map]⟩

lemma hasRoom_of_flag (hmap : si'.swapMap = si.swapMap)
    (hflag : 128 ≤ (si.swapMap offset).toNat) (h : Room (contBytes pageSize si' offset)) :
    HasRoom pageSize si' offset := by
  rw [HasRoom, hmap, if_pos hflag]
  exact h

lemma hasRoom_of_pages (hmap : si'.swapMap = si.swapMap)
    (hflag : ¬ 128 ≤ (si.swapMap offset).toNat) (h : si'.cont (offset / pageSize) = some pages) :
    HasRoom pageSize si' offset := by
  rw [HasRoom, hmap, if_neg hflag, h]
  exact Option.some_ne_none _

lemma attachPage_spec (page : ContPage) (hlisted : ∀ head, si.cont head ≠ some [])
    (hok : SlotOk pageSize si offset)
    (hc : 128 ≤ c.toNat ↔ 128 ≤ (si.swapMap offset).toNat) :
    ∃ si', (match si.cont (offset / pageSize) with
        | none =>
          if c &&& countContinued ≠ 0 then none
          else some ({ si.setCont (offset / pageSize) [page] with continued := true },
            (.ok () : Except SwapError Unit))
        | some pages =>
          if lacksPage (offset % pageSize) c pages then
            some (si.setCont (offset / pageSize) (pages ++ [page]), .ok ())
          else some (si, .ok ())) = some (si', .ok ())
      ∧ Extends pageSize si si' offset ∧ HasRoom pageSize si' offset := by
  have hlt := c.isLt
  have hflagged : c &&& countContinued = 0 ↔ ¬ 128 ≤ c.toNat := by
    rw [byte_eq_iff, flagPart_toNat, byte_zero_toNat]
    omega
  cases hcont : si.cont (offset / pageSize) with
  | none =>
    have hflag : ¬ 128 ≤ (si.swapMap offset).toNat := fun h => by
      obtain ⟨_, _, h'⟩ := exists_pages (hok.digits h)
      rw [hcont] at h'
      cases h'
    have hext : Extends pageSize si (si.setCont (offset / pageSize) [page]) offset :=
      .setCont (List.cons_ne_nil _ _) fun j => by
        rw [hcont]
        exact fun h => h.elim
    simp only [hflagged.mpr (hc.not.mpr hflag), ne_eq, not_true_eq_false, if_false]
    refine ⟨_, rfl, ⟨⟨rfl, rfl, fun _ _ => rfl, hext.touches.bytes, hext.touches.listed⟩, rfl,
      hext.keeps⟩, hasRoom_of_pages (show _ = si.swapMap from rfl) hflag
        (show update si.cont (offset / pageSize) (some [page]) _ = some [page] from
          update_self ..)⟩
  | some pages =>
    by_cases hflag : 128 ≤ (si.swapMap offset).toNat
    · have hdigits := hok.digits hflag
      rw [contBytes_eq hcont] at hdigits
      have hroom := lacksPage_spec _ c pages page (hc.mpr hflag) hdigits
      simp only
      split_ifs at hroom ⊢
      · refine ⟨_, rfl, .setCont (by simp) fun j => ?_, hasRoom_of_flag rfl hflag ?_⟩
        · rw [hcont, Option.getD_some, bytesAt, bytesAt, List.map_append]
          exact keeps_append _ _
        · rw [contBytes_setCont_self]
          exact hroom
      · refine ⟨_, rfl, .refl, hasRoom_of_flag rfl hflag ?_⟩
        rw [contBytes_eq hcont]
        exact hroom
    · cases pages with
      | nil => exact (hlisted _ hcont).elim
      | cons p next =>
        simp only [lacksPage, if_pos (hflagged.mpr (hc.not.mpr hflag)), Bool.false_eq_true,
          if_false]
        exact ⟨_, rfl, .refl, hasRoom_of_pages rfl hflag hcont⟩

lemma addSwapCountContinuation_spec (page : Option ContPage)
    (hlisted : ∀ head, si.cont head ≠ some []) (hok : SlotOk pageSize si offset) :
    ∃ si' r, addSwapCountContinuation pageSize si offset page = some (si', r)
      ∧ Extends pageSize si si' offset ∧ (page.isSome = true → swapInfoGet si offset = true →
          (si.swapMap offset).toNat % 64 = 62 → r = .ok () ∧ HasRoom pageSize si' offset) := by
  have hbyte := (si.swapMap offset).isLt
  have hc := countPart_toNat (si.swapMap offset)
  have hcd := digitPart_toNat (si.swapMap offset &&& ~~~swapHasCache)
  rw [addSwapCountContinuation]
  by_cases hget : swapInfoGet si offset = false
  · rw [if_pos hget, hget]
    exact ⟨_, _, rfl, .refl, fun _ h => absurd h (by decide)⟩
  rw [if_neg hget]
  simp only
  by_cases hmax : (si.swapMap offset &&& ~~~swapHasCache) &&& ~~~countContinued = swapMapMax
  · rw [if_neg (not_not.mpr hmax)]
    cases page with
    | none => exact ⟨_, _, rfl, .refl, fun h => absurd h (by decide)⟩
    | some page =>
      obtain ⟨si', hcall, hext, hroom⟩ := attachPage_spec page hlisted hok
        (c := si.swapMap offset &&& ~~~swapHasCache) (by omega)
      exact ⟨si', _, hcall, hext, fun _ _ _ => ⟨rfl, hroom⟩⟩
  · rw [if_pos hmax]
    refine ⟨_, _, rfl, .refl, fun _ _ h62 => (hmax ?_).elim⟩
    rw [byte_eq_iff, hcd, swapMapMax_toNat]
    omega

lemma swapDuplicate_spec (hpage : ∀ k, (page k).isSome = true)
    (hlisted : ∀ head, si.cont head ≠ some []) (hok : SlotOk pageSize si offset)
    (hgood : ¬ si.Bad offset) (hget : swapInfoGet si offset = true) (n : ℕ) :
    ∃ si', swapDuplicate pageSize page (n + 2) si offset = some (si', .ok ())
      ∧ Counted pageSize si si' offset (swapCount pageSize si offset + 1) := by
  obtain ⟨-, hmax, hne⟩ := swapInfoGet_iff.mp hget
  rw [swapDuplicate]
  rcases swapDuplicateUsage_one hlisted hok with ⟨si', hcall, hcounted, -⟩ | ⟨err, hcall, hfull⟩
  · rw [hcall]
    exact ⟨si', rfl, hcounted⟩
  obtain ⟨h62, -, rfl⟩ := hfull hmax hgood hne
  obtain ⟨si', r, hadd, hext, hroom⟩ := addSwapCountContinuation_spec (page (n + 1)) hlisted hok
  obtain ⟨rfl, hspace⟩ := hroom (hpage _) hget h62
  simp only [hcall, hadd]
  rw [swapDuplicate]
  rcases swapDuplicateUsage_one (hext.touches.listed hlisted) (hext.slotOk hok) with
    ⟨si'', hcall', hcounted, -⟩ | ⟨err, -, hfull⟩
  · rw [hcall']
    rw [hext.swapCount_eq hok] at hcounted
    exact ⟨si'', rfl, hext.counted hcounted⟩
  · have hmax' : offset < si'.max := by rw [hext.touches.max]; exact hmax
    have hne' : si'.swapMap offset ≠ 0 := by rw [hext.map]; exact hne
    exact ((hfull hmax' (hext.bad_iff.not.mpr hgood) hne').2.1 hspace).elim

lemma setMap_cache (hok : SlotOk pageSize si offset) {x : BitVec 8}
    (hmap : si'.swapMap = update si.swapMap offset x) (hcont : si'.cont = si.cont)
    (hused : si'.used = si.used) (hmax : si'.max = si.max)
    (hx : x &&& ~~~swapHasCache = si.swapMap offset &&& ~~~swapHasCache) :
    Touches pageSize si si' offset ∧ SlotOk pageSize si' offset ∧ (si'.Bad offset ↔ si.Bad offset)
      ∧ swapCount pageSize si' offset = swapCount pageSize si offset := by
  have hself : si'.swapMap offset = x := by rw [hmap, update_self]
  have hbytes : ∀ j, contBytes pageSize si' j = contBytes pageSize si j := fun j => by
    rw [contBytes, contBytes, hcont]
  have h1 := countPart_toNat x
  have h2 := countPart_toNat (si.swapMap offset)
  have hiff : 128 ≤ x.toNat ↔ 128 ≤ (si.swapMap offset).toNat := by rw [hx] at h1; omega
  have hlow : x.toNat % 64 = (si.swapMap offset).toNat % 64 := by rw [hx] at h1; omega
  refine ⟨⟨hused, hmax, fun j hj => ?_, fun j _ => ?_, ?_⟩, ⟨?_, ?_⟩, ?_, ?_⟩
  · rw [hmap, update_of_ne hj]
  · rw [hbytes]
    exact .refl _
  · rw [hcont]
    exact id
  · have := hok.unshared
    rw [hself]
    omega
  · rw [hself, hiff, hbytes]
    exact hok.digits
  · rw [SwapInfo.Bad, SwapInfo.Bad, hself, hx]
  · rw [swapCount, swapCount, hself, hbytes, hlow]
    simp only [hiff]

end

section

/-- Calls of the functions that change swap counts, each with the lock held throughout. -/
inductive SwapCall where
  | take (offset : ℕ) (usage : BitVec 8)
  | duplicate (offset : ℕ)
  | addContinuation (offset : ℕ) (page : Option ContPage)
  | free (offset : ℕ)
  | cachePrepare (offset : ℕ)
  | cacheFree (offset : ℕ)

def SwapCall.offset : SwapCall → ℕ
  | take offset _ | duplicate offset | addContinuation offset _ | free offset
  | cachePrepare offset | cacheFree offset => offset

variable (pageSize : ℕ)

def SwapCall.exec (si : SwapInfo) (refs : ℕ → ℕ) : SwapCall → Option (SwapInfo × (ℕ → ℕ))
  | take offset usage =>
    some (takeSlot si offset usage, Function.update refs offset (if usage = 1 then 1 else 0))
  | duplicate offset =>
    (swapDuplicateUsage pageSize si offset 1).map fun r =>
      (r.1, match r.2 with
        | .ok () => Function.update refs offset (refs offset + 1)
        | .error _ => refs)
  | addContinuation offset page =>
    (addSwapCountContinuation pageSize si offset page).map fun r => (r.1, refs)
  | free offset =>
    (swapFree pageSize si offset).map fun si => (si, Function.update refs offset (refs offset - 1))
  | cachePrepare offset =>
    (swapDuplicateUsage pageSize si offset swapHasCache).map fun r => (r.1, refs)
  | cacheFree offset => (swapcacheFree pageSize si offset).map fun si => (si, refs)

/-- Only a free slot is taken, only a reference that is held is dropped, and only a page in the swap
cache is removed from it. -/
def SwapCall.Lawful (si : SwapInfo) (refs : ℕ → ℕ) : SwapCall → Prop
  | take offset usage =>
    offset < si.max ∧ si.swapMap offset = 0 ∧ (usage = 1 ∨ usage = swapHasCache)
  | free offset => 0 < refs offset
  | cacheFree offset => si.swapMap offset &&& swapHasCache ≠ 0
  | duplicate _ | addContinuation _ _ | cachePrepare _ => True

inductive SwapReach : SwapInfo → (ℕ → ℕ) → Prop where
  | fresh {si} : si.used = true → (∀ j, si.swapMap j = 0 ∨ si.swapMap j = swapMapBad) →
      (∀ head, si.cont head = none) → SwapReach si fun _ => 0
  | call {si refs si' refs' c} : SwapReach si refs → SwapCall.Lawful si refs c →
      c.exec pageSize si refs = some (si', refs') → SwapReach si' refs'

structure SwapInv (si : SwapInfo) (refs : ℕ → ℕ) : Prop where
  used : si.used = true
  listed : ∀ head, si.cont head ≠ some []
  slots : ∀ j, SlotOk pageSize si j
  count : ∀ j, ¬ si.Bad j → swapCount pageSize si j = refs j
  bad : ∀ j, si.Bad j → refs j = 0
  inside : ∀ j, 0 < refs j → j < si.max

variable {pageSize} {si si' : SwapInfo} {refs : ℕ → ℕ} {offset : ℕ}

section

variable (h : SwapInv pageSize si refs)

include h

lemma SwapInv.update {n : ℕ} (ht : Touches pageSize si si' offset)
    (hok : SlotOk pageSize si' offset)
    (hcount : ¬ si'.Bad offset → swapCount pageSize si' offset = n)
    (hbad : si'.Bad offset → n = 0) (hin : 0 < n → offset < si.max) :
    SwapInv pageSize si' (update refs offset n) := by
  refine ⟨ht.used.trans h.used, ht.listed h.listed, fun j => ?_, fun j => ?_, fun j => ?_,
    fun j => ?_⟩
  all_goals rcases eq_or_ne j offset with rfl | hj
  · exact hok
  · exact ht.slotOk hj (h.slots j)
  · rw [update_self]
    exact hcount
  · rw [update_of_ne hj, ht.bad_iff hj, ht.swapCount_eq hj (h.slots j)]
    exact h.count j
  · rw [update_self]
    exact hbad
  · rw [update_of_ne hj, ht.bad_iff hj]
    exact h.bad j
  · rw [update_self, ht.max]
    exact hin
  · rw [update_of_ne hj, ht.max]
    exact h.inside j

lemma SwapInv.counted {n : ℕ}
    (hc : Counted pageSize si si' offset n) (hin : offset < si.max) :
    SwapInv pageSize si' (Function.update refs offset n) :=
  h.update hc.touches hc.ok (fun _ => hc.count) (fun hbad => (hc.good hbad).elim) fun _ => hin

lemma SwapInv.same (ht : Touches pageSize si si' offset)
    (hok : SlotOk pageSize si' offset) (hbad : si'.Bad offset ↔ si.Bad offset)
    (hcount : swapCount pageSize si' offset = swapCount pageSize si offset) :
    SwapInv pageSize si' refs := by
  have := h.update (n := refs offset) ht hok (fun hg => ?_) (fun hb => ?_) (h.inside offset)
  · rwa [update_eq_self] at this
  · rw [hcount]
    exact h.count offset (hbad.not.mp hg)
  · exact h.bad offset (hbad.mp hb)

lemma SwapInv.take {usage : BitVec 8} (hmax : offset < si.max)
    (husage : usage = 1 ∨ usage = swapHasCache) :
    Touches pageSize si (takeSlot si offset usage) offset ∧
      SwapInv pageSize (takeSlot si offset usage)
        (Function.update refs offset (if usage = 1 then 1 else 0)) := by
  have hself : (takeSlot si offset usage).swapMap offset = usage := update_self ..
  have ht : Touches pageSize si (takeSlot si offset usage) offset :=
    ⟨rfl, rfl, fun j hj => update_of_ne hj _ _, fun j _ => .refl _, fun hl => hl⟩
  refine ⟨ht, h.update ht ⟨?_, ?_⟩ (fun _ => ?_) (fun hbad => ?_) fun _ => hmax⟩
  · rw [hself]
    rcases husage with rfl | rfl <;> decide
  · rw [hself]
    rcases husage with rfl | rfl <;> exact fun h => absurd h (by decide)
  · rw [swapCount, hself]
    rcases husage with rfl | rfl <;> rfl
  · rw [SwapInfo.Bad, hself] at hbad
    rcases husage with rfl | rfl <;> exact absurd hbad (by decide)

lemma SwapInv.cachePrepare :
    ∃ si' r, swapDuplicateUsage pageSize si offset swapHasCache = some (si', r)
      ∧ Touches pageSize si si' offset ∧ SwapInv pageSize si' refs := by
  rw [swapDuplicateUsage]
  by_cases hmax : si.max ≤ offset
  · rw [if_pos hmax]
    exact ⟨_, _, rfl, .refl, h⟩
  simp only [if_neg hmax, if_pos, setMap_parts]
  split_ifs with hnew
  · have hx : ∀ b : BitVec 8, ((b &&& ~~~swapHasCache) ||| swapHasCache) &&& ~~~swapHasCache =
        b &&& ~~~swapHasCache := by decide +kernel
    obtain ⟨ht, hok, hbad, hcount⟩ := setMap_cache (h.slots offset)
      (show (si.setMap offset ((si.swapMap offset &&& ~~~swapHasCache) ||| swapHasCache)).swapMap
        = _ from rfl) rfl rfl rfl (hx _)
    exact ⟨_, _, rfl, ht, h.same ht hok hbad hcount⟩
  · exact ⟨_, _, rfl, .refl, h⟩
  · exact ⟨_, _, rfl, .refl, h⟩

lemma SwapInv.cacheFree
    (hcache : si.swapMap offset &&& swapHasCache ≠ 0) :
    ∃ si', swapcacheFree pageSize si offset = some si'
      ∧ Touches pageSize si si' offset ∧ SwapInv pageSize si' refs := by
  rw [swapcacheFree]
  by_cases hget : swapInfoGet si offset = true
  · have hx : ∀ b : BitVec 8,
      (b &&& ~~~swapHasCache) &&& ~~~swapHasCache = b &&& ~~~swapHasCache := by decide +kernel
    have hstore : ∀ x : BitVec 8,
        (storeUsage si offset x).1.swapMap = Function.update si.swapMap offset x
        ∧ (storeUsage si offset x).1.cont = si.cont ∧ (storeUsage si offset x).1.used = si.used
        ∧ (storeUsage si offset x).1.max = si.max := by
      intro x
      rw [storeUsage]
      split_ifs <;> exact ⟨rfl, rfl, rfl, rfl⟩
    simp only [if_pos hget, swapEntryFree, if_true, if_neg hcache, Option.map_some]
    obtain ⟨hmap, hcont, hused, hmax⟩ := hstore (si.swapMap offset &&& ~~~swapHasCache)
    obtain ⟨ht, hok, hbad, hcount⟩ := setMap_cache (h.slots offset) hmap hcont hused hmax (hx _)
    exact ⟨_, rfl, ht, h.same ht hok hbad hcount⟩
  · rw [if_neg hget]
    exact ⟨_, rfl, .refl, h⟩

omit h in
lemma SwapInv.call (h : SwapInv pageSize si refs) {c : SwapCall} (hc : c.Lawful si refs) :
    ∃ si' refs', c.exec pageSize si refs = some (si', refs') ∧ Touches pageSize si si' c.offset
      ∧ SwapInv pageSize si' refs' := by
  cases c with
  | take offset usage =>
    obtain ⟨hmax, -, husage⟩ := hc
    exact ⟨_, _, rfl, h.take hmax husage⟩
  | duplicate offset =>
    simp only [SwapCall.exec]
    rcases swapDuplicateUsage_one h.listed (h.slots offset) with
      ⟨si', hcall, hcounted, hgood, hmax⟩ | ⟨err, hcall, -⟩
    · rw [hcall]
      rw [h.count offset hgood] at hcounted
      exact ⟨_, _, rfl, hcounted.touches, h.counted hcounted hmax⟩
    · rw [hcall]
      exact ⟨_, _, rfl, .refl, h⟩
  | addContinuation offset page =>
    obtain ⟨si', r, hcall, hext, -⟩ := addSwapCountContinuation_spec page h.listed (h.slots offset)
    simp only [SwapCall.exec, hcall]
    exact ⟨_, _, rfl, hext.touches, h.same hext.touches (hext.slotOk (h.slots offset)) hext.bad_iff
      (hext.swapCount_eq (h.slots offset))⟩
  | free offset =>
    have hgood : ¬ si.Bad offset := fun hbad => hc.ne' (h.bad offset hbad)
    have hcount := h.count offset hgood
    obtain ⟨si', hcall, hcounted⟩ := swapFree_spec (h.slots offset) hgood (by rw [hcount]; exact hc)
      h.used (h.inside offset hc)
    simp only [SwapCall.exec, hcall]
    rw [hcount] at hcounted
    exact ⟨_, _, rfl, hcounted.touches, h.counted hcounted (h.inside offset hc)⟩
  | cachePrepare offset =>
    obtain ⟨si', r, hcall, ht, hinv⟩ : ∃ si' r,
        swapDuplicateUsage pageSize si offset swapHasCache = some (si', r)
          ∧ Touches pageSize si si' offset ∧ SwapInv pageSize si' refs := h.cachePrepare
    simp only [SwapCall.exec, hcall]
    exact ⟨_, _, rfl, ht, hinv⟩
  | cacheFree offset =>
    obtain ⟨si', hcall, ht, hinv⟩ := h.cacheFree hc
    simp only [SwapCall.exec, hcall]
    exact ⟨_, _, rfl, ht, hinv⟩

omit h in
lemma swapInv_fresh (hused : si.used = true)
    (hmap : ∀ j, si.swapMap j = 0 ∨ si.swapMap j = swapMapBad)
    (hcont : ∀ head, si.cont head = none) : SwapInv pageSize si fun _ => 0 := by
  refine ⟨hused, fun head => by simp [hcont], fun j => ⟨?_, ?_⟩, fun j hgood => ?_, fun _ _ => rfl,
    fun _ h => absurd h (lt_irrefl 0)⟩
  · rcases hmap j with h | h <;> rw [h] <;> decide
  · rcases hmap j with h | h <;> rw [h] <;> exact fun h => absurd h (by decide)
  rcases hmap j with h | h
  · rw [swapCount, h]
    rfl
  · rw [SwapInfo.Bad, h] at hgood
    exact absurd rfl hgood

omit h in
lemma SwapReach.inv (h : SwapReach pageSize si refs) : SwapInv pageSize si refs := by
  induction h with
  | fresh hused hmap hcont => exact swapInv_fresh hused hmap hcont
  | call _ hlaw hexec ih =>
    obtain ⟨si', refs', hcall, -, hinv⟩ := ih.call hlaw
    obtain ⟨rfl, rfl⟩ := Prod.mk.inj (Option.some.inj (hexec.symm.trans hcall))
    exact hinv

lemma SwapInv.zero_iff {j : ℕ} (hgood : ¬ si.Bad j) :
    si.swapMap j = 0 ↔ refs j = 0 ∧ si.swapMap j &&& swapHasCache = 0 := by
  have hcount := h.count j hgood
  have hcache := cachePart_toNat (si.swapMap j)
  constructor
  · intro h0
    rw [swapCount, h0] at hcount
    exact ⟨hcount.symm, by rw [h0]; rfl⟩
  rintro ⟨h0, hc⟩
  rw [hc, byte_zero_toNat] at hcache
  rw [h0, swapCount] at hcount
  have hflag : ¬ 128 ≤ (si.swapMap j).toNat := fun hflag => by
    have := ((h.slots j).digits hflag).pos
    rw [if_pos hflag] at hcount
    omega
  rw [if_neg hflag] at hcount
  rw [byte_eq_iff, byte_zero_toNat]
  omega

end

lemma SwapReach.swapDuplicate {r : Except SwapError Unit} :
    ∀ {n : ℕ} {si : SwapInfo}, SwapReach pageSize si refs →
      swapDuplicate pageSize page n si offset = some (si', r) →
      ∃ refs', SwapReach pageSize si' refs'
        ∧ (refs' = refs ∨ refs' = update refs offset (refs offset + 1))
  | n + 1, si, h, hcall => by
    rw [Mm.swapDuplicate] at hcall
    cases hres : swapDuplicateUsage pageSize si offset 1 with
    | none =>
      rw [hres] at hcall
      cases hcall
    | some res =>
      obtain ⟨si1, res⟩ := res
      rw [hres] at hcall
      have hdup := h.call (c := .duplicate offset) trivial
        (by rw [SwapCall.exec, hres, Option.map_some])
      match res with
      | .ok () =>
        simp only [Option.some.injEq, Prod.mk.injEq] at hcall
        rw [← hcall.1]
        exact ⟨_, hdup, .inr rfl⟩
      | .error .inval | .error .exist | .error .noent =>
        simp only [Option.some.injEq, Prod.mk.injEq] at hcall
        rw [← hcall.1]
        exact ⟨_, hdup, .inl rfl⟩
      | .error .nomem =>
        simp only at hcall
        cases hres' : addSwapCountContinuation pageSize si1 offset (page n) with
        | none =>
          rw [hres'] at hcall
          cases hcall
        | some res =>
          obtain ⟨si2, res⟩ := res
          rw [hres'] at hcall
          have hadd := hdup.call (c := .addContinuation offset (page n)) trivial
            (by rw [SwapCall.exec, hres', Option.map_some])
          match res with
          | .ok () => exact hadd.swapDuplicate hcall
          | .error err =>
            simp only [Option.some.injEq, Prod.mk.injEq] at hcall
            rw [← hcall.1]
            exact ⟨_, hadd, .inl rfl⟩

lemma SwapReach.reference (h : SwapReach pageSize si refs)
    (hgood : ¬ si.Bad offset) (hget : swapInfoGet si offset = true)
    (hpage : ∀ k, (page k).isSome = true) (n : ℕ) :
    ∃ si', Mm.swapDuplicate pageSize page (n + 2) si offset = some (si', .ok ())
      ∧ Counted pageSize si si' offset (refs offset + 1)
      ∧ SwapReach pageSize si' (update refs offset (refs offset + 1)) := by
  have hinv := h.inv
  obtain ⟨si', hcall, hcounted⟩ :=
    swapDuplicate_spec hpage hinv.listed (hinv.slots offset) hgood hget n
  rw [hinv.count offset hgood] at hcounted
  obtain ⟨refs', hreach, rfl | rfl⟩ := h.swapDuplicate hcall
  · have := hreach.inv.count offset hcounted.good
    rw [hcounted.count] at this
    omega
  · exact ⟨si', hcall, hcounted, hreach⟩

/-- The bytes of a slot form the number of references to it, and it is 0 exactly when there is none
and no page in the swap cache. The next call runs into no `BUG_ON`, and `swap_duplicate`, when
`alloc_page` does not fail, adds a reference within two rounds. -/
theorem swap_counts_references (h : SwapReach pageSize si refs) :
    (∀ j, ¬ si.Bad j → swapCount pageSize si j = refs j
        ∧ (si.swapMap j = 0 ↔ refs j = 0 ∧ si.swapMap j &&& swapHasCache = 0))
      ∧ (∀ c : SwapCall, c.Lawful si refs → ∃ si' refs', c.exec pageSize si refs = some (si', refs')
          ∧ ∀ j, j ≠ c.offset → si'.swapMap j = si.swapMap j
            ∧ swapCount pageSize si' j = swapCount pageSize si j)
      ∧ ∀ offset page n, ¬ si.Bad offset → swapInfoGet si offset = true →
          (∀ k, (page k).isSome = true) →
          ∃ si', swapDuplicate pageSize page (n + 2) si offset = some (si', .ok ())
            ∧ SwapReach pageSize si' (Function.update refs offset (refs offset + 1))
            ∧ swapCount pageSize si' offset = refs offset + 1
            ∧ ∀ j, j ≠ offset → si'.swapMap j = si.swapMap j
              ∧ swapCount pageSize si' j = swapCount pageSize si j := by
  have hinv := h.inv
  refine ⟨fun j hgood => ⟨hinv.count j hgood, hinv.zero_iff hgood⟩, fun c hc => ?_,
    fun offset page n hgood hget hpage => ?_⟩
  · obtain ⟨si', refs', hcall, ht, -⟩ := hinv.call hc
    exact ⟨si', refs', hcall, fun j hj => ⟨ht.map j hj, ht.swapCount_eq hj (hinv.slots j)⟩⟩
  · obtain ⟨si', hcall, hcounted, hreach⟩ := h.reference hgood hget hpage n
    exact ⟨si', hcall, hreach, hcounted.count, fun j hj => ⟨hcounted.touches.map j hj,
      hcounted.touches.swapCount_eq hj (hinv.slots j)⟩⟩

lemma SwapReach.references (h : SwapReach pageSize si refs) (hgood : ¬ si.Bad offset)
    (hget : swapInfoGet si offset = true) :
    ∀ n, ∃ si' refs', SwapReach pageSize si' refs' ∧ refs' offset = refs offset + n
      ∧ ¬ si'.Bad offset ∧ swapInfoGet si' offset = true
  | 0 => ⟨si, refs, h, rfl, hgood, hget⟩
  | n + 1 => by
    obtain ⟨si1, refs1, h1, hrefs, hgood1, hget1⟩ := h.references hgood hget n
    obtain ⟨si2, -, hcounted, h2⟩ :=
      h1.reference hgood1 hget1 (show ∀ k, ((fun _ => some fun _ => 0xff : ℕ → Option ContPage)
        k).isSome = true from fun _ => rfl) 0
    obtain ⟨hused, hmax, -⟩ := swapInfoGet_iff.mp hget1
    refine ⟨si2, _, h2, ?_, hcounted.good, swapInfoGet_iff.mpr ⟨h2.inv.used, ?_, fun h0 => ?_⟩⟩
    · rw [update_self]
      omega
    · rw [hcounted.touches.max]
      exact hmax
    · have := ((h2.inv.zero_iff hcounted.good).mp h0).1
      rw [update_self] at this
      omega

theorem swap_counts_references_carry :
    ∃ si refs, SwapReach 4096 si refs ∧ refs 5 = 9000 ∧ swapCount 4096 si 5 = 9000 := by
  have h0 : SwapReach 4096 ⟨true, false, 8192, fun _ => 0, 1, 8191, 8191, 0, fun _ => none⟩
      fun _ => 0 := .fresh rfl (fun _ => .inl rfl) fun _ => rfl
  have h1 := h0.call (c := .take 5 1) ⟨by decide, rfl, .inl rfl⟩ rfl
  obtain ⟨si, refs, h2, hrefs, hgood, -⟩ := h1.references
    (show ¬ SwapInfo.Bad _ 5 by decide) (by decide) 8999
  have h9000 : refs 5 = 9000 := hrefs
  exact ⟨si, refs, h2, h9000, (((swap_counts_references h2).1 5 hgood).1).trans h9000⟩

end

end LinuxKernel.Mm
