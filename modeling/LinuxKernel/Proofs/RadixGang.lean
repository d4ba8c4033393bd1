import LinuxKernel.RadixGang
import LinuxKernel.Proofs.RadixTree

/-!
# Gang lookups

`skipLoop` goes on to the first offset that is hit, and no index it passes has an item
(`skipLoop_spec`), so the loop around `__lookup` is a scan. A tree of height 0 is read without a
look at `max_items`: with `max_items` 0 the item is returned all the same.
-/

namespace LinuxKernel.Lib

open SlotTree List Nat

variable {α : Type*} {shift h index lim firstIndex maxItems : ℕ} {L : LongSize}
  {hit : Fin (2 ^ shift) → Bool} {slots : Fin (2 ^ shift) → RadixSlot shift α}
  {it : ℕ → Option (RadixSlot shift α)} {root : RadixTreeRoot shift α} {t : RadixTree shift α}
  {m : TaggedMap α}

lemma block_end_le {S N i : ℕ} (hd : S ∣ N) (hi : i < N) : (i / S + 1) * S ≤ N := by
  obtain ⟨k, rfl⟩ := hd
  have hlt : i / S < k := Nat.div_lt_of_lt_mul hi
  rw [mul_comm]
  exact Nat.mul_le_mul_left S hlt

lemma lt_block_end {S : ℕ} (hS : 0 < S) (i : ℕ) : i < (i / S + 1) * S := by
  rw [mul_comm]
  exact lt_mul_div_succ i hS

lemma same_block {S i j : ℕ} (hij : i ≤ j) (hj : j < (i / S + 1) * S) : j / S = i / S := by
  have hle := Nat.div_le_div_right (c := S) hij
  have hlt : j / S < i / S + 1 := Nat.div_lt_of_lt_mul (by rwa [mul_comm] at hj)
  omega

lemma nextBlock_eq (sh index : ℕ) :
    nextBlock L sh index = (index / 2 ^ sh + 1) * 2 ^ sh % 2 ^ L.bits := by
  have h := div_add_mod index (2 ^ sh)
  rw [nextBlock, addMod, show index - index % 2 ^ sh = 2 ^ sh * (index / 2 ^ sh) by omega]
  congr 1
  ring

lemma pow_shift_succ (h : ℕ) : 2 ^ (shift * (h + 1)) = 2 ^ (shift * h) * 2 ^ shift := by
  rw [mul_succ, pow_add]

lemma digit_next {i : Fin (2 ^ shift)} (hd : digit shift h index = i)
    (hi : i.val + 1 < 2 ^ shift) :
    digit shift h ((index / 2 ^ (shift * h) + 1) * 2 ^ (shift * h)) = ⟨i + 1, hi⟩
      ∧ (index / 2 ^ (shift * h) + 1) * 2 ^ (shift * h) / 2 ^ (shift * (h + 1))
        = index / 2 ^ (shift * (h + 1)) := by
  have hS : 0 < 2 ^ (shift * h) := by positivity
  have hq : index / 2 ^ (shift * h) % 2 ^ shift = i.val := by rw [← hd, digit_val]
  have hsplit := div_add_mod (index / 2 ^ (shift * h)) (2 ^ shift)
  rw [hq] at hsplit
  have hnext : index / 2 ^ (shift * h) + 1
      = 2 ^ shift * (index / 2 ^ (shift * h) / 2 ^ shift) + (i.val + 1) := by omega
  refine ⟨Fin.ext ?_, ?_⟩
  · rw [digit_val, Nat.mul_div_cancel _ hS, hnext, mul_add_mod, mod_eq_of_lt hi]
  · rw [pow_shift_succ, ← Nat.div_div_eq_div_mul, ← Nat.div_div_eq_div_mul, Nat.mul_div_cancel _ hS]
    nth_rewrite 1 [hnext]
    rw [mul_add_div (by positivity), div_eq_of_lt hi, add_zero]

def blockEnd (shift h index : ℕ) : ℕ :=
  (index / 2 ^ (shift * (h + 1)) + 1) * 2 ^ (shift * (h + 1))

/-- What `skipLoop` ends with: no index it passed is hit. -/
def SkipTo (L : LongSize) (hit : Fin (2 ^ shift) → Bool) (h index : ℕ) :
    Except ℕ (Fin (2 ^ shift) × ℕ) → Prop
  | .ok (i, index') => hit i = true ∧ digit shift h index' = i ∧ index ≤ index'
      ∧ index' < 2 ^ L.bits ∧ blockEnd shift h index' = blockEnd shift h index
      ∧ ∀ j, index ≤ j → j < index' → hit (digit shift h j) = false
  | .error next => ∃ hi, index < hi ∧ hi ≤ blockEnd shift h index ∧ hi ≤ 2 ^ L.bits
      ∧ next = hi % 2 ^ L.bits ∧ ∀ j, index ≤ j → j < hi → hit (digit shift h j) = false

lemma digit_congr {i j : ℕ} (hq : j / 2 ^ (shift * h) = i / 2 ^ (shift * h)) :
    digit shift h j = digit shift h i := by
  refine Fin.ext ?_
  rw [digit_val, digit_val, hq]

lemma next_le_blockEnd (h index : ℕ) :
    (index / 2 ^ (shift * h) + 1) * 2 ^ (shift * h) ≤ blockEnd shift h index := by
  refine block_end_le ?_ (lt_block_end (by positivity) index)
  exact (pow_dvd_pow 2 (Nat.mul_le_mul_left shift (le_succ h))).trans (Nat.dvd_mul_left _ _)

lemma not_hit_block {i : Fin (2 ^ shift)} (hd : digit shift h index = i)
    (hhit : ¬ hit i = true) (j : ℕ) (hj : index ≤ j)
    (hlt : j < (index / 2 ^ (shift * h) + 1) * 2 ^ (shift * h)) :
    hit (digit shift h j) = false := by
  rw [digit_congr (same_block hj hlt), hd]
  simpa using hhit

lemma skipLoop_spec (hsh : shift * h ≤ L.bits) (i : Fin (2 ^ shift)) (index : ℕ)
    (hd : digit shift h index = i) (hlt : index < 2 ^ L.bits) :
    SkipTo L hit h index (skipLoop L hit (shift * h) i index) := by
  have hstep : ∀ index, index < 2 ^ L.bits → index < (index / 2 ^ (shift * h) + 1) * 2 ^ (shift * h)
        ∧ (index / 2 ^ (shift * h) + 1) * 2 ^ (shift * h) ≤ 2 ^ L.bits := fun index hlt =>
    ⟨lt_block_end (by positivity) index, block_end_le (pow_dvd_pow 2 hsh) hlt⟩
  fun_induction skipLoop L hit (shift * h) i index with
  | case1 i index hhit => exact ⟨hhit, hd, le_rfl, hlt, rfl, fun j h1 h2 => absurd h1 (not_le.2 h2)⟩
  | case2 i index hhit h0 =>
    rw [nextBlock_eq] at h0
    exact ⟨_, (hstep index hlt).1, next_le_blockEnd h index, (hstep index hlt).2, h0.symm,
      not_hit_block hd hhit⟩
  | case3 i index hhit h0 hi ih =>
    obtain ⟨hgt, hle⟩ := hstep index hlt
    obtain ⟨hd', hblock⟩ := digit_next hd hi
    rw [nextBlock_eq] at h0 ih ⊢
    have hlt' : (index / 2 ^ (shift * h) + 1) * 2 ^ (shift * h) < 2 ^ L.bits := by
      refine lt_of_le_of_ne hle fun he => h0 ?_
      rw [he, mod_self]
    rw [mod_eq_of_lt hlt'] at ih ⊢
    have hend : blockEnd shift h ((index / 2 ^ (shift * h) + 1) * 2 ^ (shift * h))
        = blockEnd shift h index := by rw [blockEnd, hblock, blockEnd]
    have hpass := not_hit_block (h := h) hd hhit
    generalize (index / 2 ^ (shift * h) + 1) * 2 ^ (shift * h) = next at *
    have hres := ih hd' hlt'
    generalize skipLoop L hit (shift * h) ⟨i + 1, hi⟩ next = r at hres
    have hcover : ∀ {hi}, (∀ j, next ≤ j → j < hi → hit (digit shift h j) = false) →
        ∀ j, index ≤ j → j < hi → hit (digit shift h j) = false := by
      intro hi hpass' j hj hjlt
      rcases lt_or_ge j next with h1 | h1
      · exact hpass j hj h1
      · exact hpass' j h1 hjlt
    cases r with
    | ok r =>
      obtain ⟨h1, h2, h3, h4, h5, h6⟩ := hres
      exact ⟨h1, h2, by omega, h4, h5.trans hend, hcover h6⟩
    | error next' =>
      obtain ⟨hi', h1, h2, h3, h4, h5⟩ := hres
      exact ⟨hi', by omega, by omega, h3, h4, hcover h5⟩
  | case4 i index hhit h0 hi =>
    exact ⟨_, (hstep index hlt).1, next_le_blockEnd h index, (hstep index hlt).2, nextBlock_eq _ _,
      not_hit_block hd hhit⟩

def leafItem (hit : Fin (2 ^ shift) → Bool) (slots : Fin (2 ^ shift) → RadixSlot shift α) (j : ℕ) :
    Option (RadixSlot shift α) :=
  if hit (digit shift 0 j) then some (slots (digit shift 0 j)) else none

lemma grabLoop_spec (hb : shift ≤ L.bits) (i : Fin (2 ^ shift)) (index nrFound : ℕ)
    (hd : digit shift 0 index = i) (hlt : index < 2 ^ L.bits) (hnr : nrFound < maxItems) :
    Scanned (2 ^ L.bits) (blockEnd shift 0 index) (leafItem hit slots) index (maxItems - nrFound)
      (grabLoop L hit slots maxItems i index nrFound) := by
  have hle : ∀ index, index + 1 ≤ blockEnd shift 0 index := fun index => by
    have : (index / 2 ^ (shift * 0) + 1) * 2 ^ (shift * 0) ≤ blockEnd shift 0 index :=
      next_le_blockEnd 0 index
    simpa using this
  fun_induction grabLoop L hit slots maxItems i index nrFound with
  | case1 i index nrFound hhit =>
    refine ⟨index + 1, lt_succ_self _, hle index, hlt, rfl, ?_, ?_⟩
    · rw [itemsIn_succ, leafItem, hd, if_pos hhit.1]
      rfl
    · rw [length_singleton]
      omega
  | case2 i index nrFound hhit r ih =>
    set nrFound' := if hit i then nrFound + 1 else nrFound with hnr'
    have hfound : ((if hit i then [slots i] else []) : List (RadixSlot shift α))
        = itemsIn (leafItem hit slots) index (index + 1) := by
      rw [itemsIn_succ, leafItem, hd]
      split_ifs <;> rfl
    have hlen : (if hit i then [slots i] else []).length + nrFound = nrFound' := by
      rw [hnr']
      split_ifs <;> simp [add_comm]
    have hmax : nrFound' < maxItems := by
      rw [hnr']
      split_ifs with hi
      · have : nrFound + 1 ≠ maxItems := fun he => hhit ⟨hi, he⟩
        omega
      · exact hnr
    rw [show (if hit i then slots i :: r.1 else r.1) = (if hit i then [slots i] else []) ++ r.1 by
      split_ifs <;> rfl, hfound]
    rw [hfound] at hlen
    by_cases hi : i.val + 1 < 2 ^ shift
    · have hr : r = grabLoop L hit slots maxItems ⟨i + 1, hi⟩ (addMod L.bits index 1) nrFound' :=
        dif_pos hi
      obtain ⟨hd', hblock⟩ := digit_next hd hi
      simp only [mul_zero, pow_zero, Nat.div_one, mul_one] at hd' hblock
      have hlt' : index + 1 < 2 ^ L.bits := by
        refine lt_of_le_of_ne hlt fun he => ?_
        have h0 := congrArg Fin.val hd'
        rw [he, digit_val, mul_zero, pow_zero, Nat.div_one,
          mod_eq_zero_of_dvd (pow_dvd_pow 2 hb)] at h0
        exact absurd h0 (succ_ne_zero _).symm
      rw [addMod_of_lt hlt'] at ih hr
      have hscan : Scanned (2 ^ L.bits) (blockEnd shift 0 (index + 1)) (leafItem hit slots)
          (index + 1)
          (maxItems - nrFound') r := by
        rw [hr]
        exact ih hi hd' hlt' hmax
      obtain ⟨last, h1, h2, h3, h4, h5, h6⟩ := hscan
      have hend : blockEnd shift 0 (index + 1) = blockEnd shift 0 index := by
        rw [blockEnd, hblock, blockEnd]
      refine ⟨last, by omega, by omega, h3, h4, ?_, ?_⟩
      · rw [itemsIn_append (le_succ index) h1.le, h5]
      · rw [length_append]
        omega
    · have hr : r = ([], addMod L.bits index 1) := dif_neg hi
      refine ⟨index + 1, lt_succ_self _, hle index, hlt, ?_, ?_, ?_⟩
      · rw [hr]
        rfl
      · rw [hr, append_nil]
      · rw [hr, append_nil]
        dsimp only
        omega

def nodeItem (h : ℕ) (t : RadixSlot shift α) (j : ℕ) : Option (RadixSlot shift α) :=
  if (slotAt h t j).isNull then none else some (slotAt h t j)

def nodeTagItem (tag : Fin 2) (h : ℕ) (t : RadixSlot shift α) (j : ℕ) :
    Option (RadixSlot shift α) :=
  if tagAt tag h t j then some (slotAt h t j) else none

lemma SkipTo.scanned_error {next : ℕ} (hr : SkipTo L hit h index (.error next))
    (hnone : ∀ j, hit (digit shift h j) = false → it j = none) :
    Scanned (2 ^ L.bits) (blockEnd shift h index) it index lim ([], next) := by
  obtain ⟨hi, h1, h2, h3, h4, h5⟩ := hr
  refine ⟨hi, h1, h2, h3, h4, ?_, Nat.zero_le _⟩
  exact (itemsIn_none fun j hj hlt => hnone j (h5 j hj hlt)).symm

lemma SkipTo.scanned_ok {i : Fin (2 ^ shift)} {index' : ℕ} {r : List (RadixSlot shift α) × ℕ}
    (hr : SkipTo L hit h index (.ok (i, index')))
    (hnone : ∀ j, hit (digit shift h j) = false → it j = none)
    (hrest : Scanned (2 ^ L.bits) (blockEnd shift h index') it index' lim r) :
    Scanned (2 ^ L.bits) (blockEnd shift h index) it index lim r := by
  obtain ⟨-, -, h3, -, h5, h6⟩ := hr
  rw [← h5]
  exact hrest.skip h3 fun j hj hlt => hnone j (h6 j hj hlt)

lemma blockEnd_le_succ (h index : ℕ) : blockEnd shift h index ≤ blockEnd shift (h + 1) index :=
  next_le_blockEnd (h + 1) index

lemma digit_of_lt_blockEnd {j : ℕ} (hj : index ≤ j) (hlt : j < blockEnd shift h index) :
    digit shift (h + 1) j = digit shift (h + 1) index :=
  digit_congr (same_block hj hlt)

lemma lookupNode_spec (hb : shift ≤ L.bits) (hmax : 0 < maxItems) :
    ∀ {h : ℕ} {t : RadixSlot shift α} {index : ℕ}, SlotOk (h + 1) t → t.isNull = false →
      shift * h ≤ L.bits → index < 2 ^ L.bits →
      Scanned (2 ^ L.bits) (blockEnd shift h index) (nodeItem (h + 1) t) index maxItems
        (lookupNode L maxItems (h + 1) t index)
  | 0, t, index, hok, hne, _, hlt => by
    rcases hok.succ_cases with rfl | ⟨info, slots, rfl, -, -⟩
    · cases hne
    · refine (grabLoop_spec hb _ index 0 rfl hlt hmax).congr fun j _ _ => ?_
      rw [leafItem, nodeItem, slotAt_node, slotAt_zero]
      cases (slots (digit shift 0 j)).isNull <;> rfl
  | h + 1, t, index, hok, hne, hsh, hlt => by
    rcases hok.succ_cases with rfl | ⟨info, slots, rfl, -, hk⟩
    · cases hne
    have hnone : ∀ j, (!(slots (digit shift (h + 1) j)).isNull) = false →
        nodeItem (h + 2) (.node info slots) j = none := fun j hj => by
      have hnull : slots (digit shift (h + 1) j) = .null := eq_null_of_isNull (by simpa using hj)
      rw [nodeItem, slotAt_node, hnull, slotAt_null]
      rfl
    have hs : SkipTo L (fun i => !(slots i).isNull) (h + 1) index _ :=
      skipLoop_spec hsh _ index rfl hlt
    rw [lookupNode]
    generalize skipLoop L _ _ _ index = s at hs ⊢
    cases s with
    | error next => exact hs.scanned_error hnone
    | ok found =>
      have ⟨h1, h2, _, h4, _⟩ := hs
      refine hs.scanned_ok hnone (Scanned.mono ?_ (blockEnd_le_succ h _))
      refine (lookupNode_spec hb hmax (hk found.1) (by simpa using h1)
        ((Nat.mul_le_mul_left shift (le_succ h)).trans hsh) h4).congr fun j hj hjlt => ?_
      rw [nodeItem, nodeItem, slotAt_node, digit_of_lt_blockEnd hj hjlt, h2]

lemma tagAt_of_untagged {tag : Fin 2} {t : RadixSlot shift α} (hok : SlotOk (h + 1) t)
    (ht : slotTagged tag t = false) (j : ℕ) : tagAt tag (h + 1) t j = false := by
  by_contra hj
  have hmod : tagAt tag (h + 1) t (j % 2 ^ (shift * (h + 1))) = tagAt tag (h + 1) t j :=
    bitAt_mod _ (mod_mod _ _)
  have := (slotTagged_iff hok).2 ⟨_, mod_lt j (by positivity), hmod.trans (by simpa using hj)⟩
  rw [ht] at this
  cases this

lemma lookupTagNode_spec (hb : shift ≤ L.bits) (tag : Fin 2)
    (hmax : 0 < maxItems) :
    ∀ {h : ℕ} {t : RadixSlot shift α} {index : ℕ}, SlotOk (h + 1) t → t.isNull = false →
      shift * h ≤ L.bits → index < 2 ^ L.bits →
      Scanned (2 ^ L.bits) (blockEnd shift h index) (nodeTagItem tag (h + 1) t) index maxItems
        (lookupTagNode L tag maxItems (h + 1) t index)
  | 0, t, index, hok, hne, hsh, hlt => by
    rcases hok.succ_cases with rfl | ⟨info, slots, rfl, hn, -⟩
    · cases hne
    have hnone : ∀ j, info.tags tag (digit shift 0 j) = false →
        nodeTagItem tag 1 (.node info slots) j = none := fun j hj => by
      rw [nodeTagItem, tagAt, bitAt_one, hj]
      rfl
    have hs : SkipTo L (info.tags tag) 0 index _ := skipLoop_spec hsh _ index rfl hlt
    rw [lookupTagNode]
    generalize skipLoop L _ _ _ index = s at hs ⊢
    cases s with
    | error next => exact hs.scanned_error hnone
    | ok found =>
      refine hs.scanned_ok hnone ?_
      obtain ⟨-, -, -, h4, -⟩ := hs
      refine (grabLoop_spec hb _ found.2 0 rfl h4 hmax).congr fun j _ _ => ?_
      rw [leafItem, nodeTagItem, tagAt, bitAt_one, slotAt_node, slotAt_zero]
      cases htag : info.tags tag (digit shift 0 j) with
      | false => rfl
      | true =>
        rw [hn.tags tag _ htag]
        rfl
  | h + 1, t, index, hok, hne, hsh, hlt => by
    rcases hok.succ_cases with rfl | ⟨info, slots, rfl, hn, hk⟩
    · cases hne
    have hnone : ∀ j, info.tags tag (digit shift (h + 1) j) = false →
        nodeTagItem tag (h + 2) (.node info slots) j = none := fun j hj => by
      rw [hn.above (succ_pos h)] at hj
      have huntagged : tagAt tag (h + 2) (.node info slots) j = false :=
        tagAt_of_untagged (hk _) hj j
      rw [nodeTagItem, huntagged]
      rfl
    have hs : SkipTo L (info.tags tag) (h + 1) index _ := skipLoop_spec hsh _ index rfl hlt
    rw [lookupTagNode]
    generalize skipLoop L _ _ _ index = s at hs ⊢
    cases s with
    | error next => exact hs.scanned_error hnone
    | ok found =>
      refine hs.scanned_ok hnone (Scanned.mono ?_ (blockEnd_le_succ h _))
      obtain ⟨h1, h2, -, h4, -⟩ := hs
      refine (lookupTagNode_spec hb tag hmax (hk found.1) (hn.tags tag _ h1)
        ((Nat.mul_le_mul_left shift (le_succ h)).trans hsh) h4).congr fun j hj hjlt => ?_
      rw [nodeTagItem, nodeTagItem, tagAt, bitAt_succ, slotAt_node,
        digit_of_lt_blockEnd hj hjlt, h2]

lemma gangLookup_spec (h : RootOk L root)
    {lookup : ℕ → ℕ → RadixSlot shift α → ℕ → List (RadixSlot shift α) × ℕ}
    (hpresent : ∀ j slot, it j = some slot → rootSlot root j = slot ∧ slot.isNull = false)
    (hdirect : root.height = 0 → root.rnode.isNull = false → it 0 = some root.rnode)
    (hlookup : 0 < root.height → root.rnode.isNull = false → ∀ lo lim, lo < 2 ^ L.bits →
      lo < 2 ^ (shift * root.height) → 0 < lim →
      Scanned (2 ^ L.bits) (2 ^ (shift * root.height)) it lo lim
      (lookup lim root.height root.rnode lo)) (hfirst : firstIndex < 2 ^ L.bits) (hmax : 0 < maxItems) :
    gangLookup L lookup root firstIndex maxItems
      = some ((itemsIn it firstIndex (2 ^ L.bits)).take maxItems) := by
  have hpast : ∀ j, 2 ^ (shift * root.height) ≤ j → it j = none := fun j hj => by
    cases hit : it j with
    | none => rfl
    | some slot =>
      obtain ⟨h1, h2⟩ := hpresent j slot hit
      rw [rootSlot, if_neg (by omega)] at h1
      rw [← h1] at h2
      cases h2
  unfold gangLookup
  cases hnull : root.rnode.isNull with
  | true =>
    rw [if_pos rfl, itemsIn_none, take_nil]
    intro j _ _
    cases hit : it j with
    | none => rfl
    | some slot =>
      obtain ⟨h1, h2⟩ := hpresent j slot hit
      rw [← h1, rootSlot_of_null hnull] at h2
      cases h2
  | false =>
    rw [if_neg (by simp)]
    rcases h.indirect_cases hnull with ⟨h0, hind⟩ | ⟨h0, hind, info, slots, hr, hh⟩
    · rw [hind, if_pos (by simp)]
      have hpast : ∀ j, 1 ≤ j → j < 2 ^ L.bits → it j = none := fun j hj _ => by
        refine hpast j ?_
        rwa [h0, mul_zero, pow_zero]
      rcases Nat.eq_zero_or_pos firstIndex with rfl | hpos
      · rw [if_neg (lt_irrefl 0), itemsIn_append (Nat.zero_le 1) hfirst, itemsIn_none hpast,
          append_nil, itemsIn_succ, hdirect h0 hnull, Option.toList_some,
          take_of_length_le (by rwa [length_singleton])]
      · rw [if_pos hpos, itemsIn_none fun j hj => hpast j (by omega), take_nil]
    · have hlook := hlookup h0 hnull
      rw [hind, if_neg (by simp)]
      rw [hr] at hlook ⊢
      simp only [hh]
      refine scanPass_run (fun lo lim hlo hstop hlim => ?_) (fun j hj hjW => ?_) hfirst
      · have hlt : ¬ 2 ^ (shift * root.height) ≤ lo := by
          rw [← maxindex_lt_iff hlo]
          omega
        obtain ⟨hi, h1, h2, h3, h4, h5, h6⟩ := hlook lo lim hlo (not_le.1 hlt) hlim
        have hfilter : ∀ slot ∈ (lookup lim root.height (.node info slots) lo).1,
            (!slot.isNull) = true := fun slot hslot => by
          rw [h5] at hslot
          obtain ⟨j, hj⟩ := exists_of_mem_itemsIn hslot
          rw [(hpresent j slot hj).2]
          rfl
        rw [filter_eq_self.2 hfilter]
        exact ⟨hi, h1, h3, h3, h4, h5, h6⟩
      · exact hpast j ((maxindex_lt_iff hjW).1 hj)

def rootItem (root : RadixTreeRoot shift α) (j : ℕ) : Option (RadixSlot shift α) :=
  if (rootSlot root j).isNull then none else some (rootSlot root j)

def rootTagItem (root : RadixTreeRoot shift α) (tag : Fin 2) (j : ℕ) : Option (RadixSlot shift α) :=
  if rootTag root tag j then some (rootSlot root j) else none

lemma top_block (h0 : 0 < shift) {k lo : ℕ} (hk : k + 1 ≤ radixTreeMaxPath L shift)
    (hlo : lo < 2 ^ (shift * (k + 1))) :
    shift * k ≤ L.bits ∧ blockEnd shift k lo = 2 ^ (shift * (k + 1)) := by
  refine ⟨?_, ?_⟩
  · have hmul := (Nat.le_div_iff_mul_le h0).1 hk
    rw [succ_mul, mul_comm] at hmul
    omega
  · rw [blockEnd, div_eq_of_lt hlo, zero_add, one_mul]

lemma radixTreeGangLookup_spec (h0 : 0 < shift) (hb : shift ≤ L.bits) (h : RootOk L root)
    (hfirst : firstIndex < 2 ^ L.bits) (hmax : 0 < maxItems) :
    radixTreeGangLookup L root firstIndex maxItems
      = some ((itemsIn (rootItem root) firstIndex (2 ^ L.bits)).take maxItems) := by
  refine gangLookup_spec h (fun j slot hj => ?_) (fun hzero hne => ?_) ?_ hfirst hmax
  · rw [rootItem] at hj
    split_ifs at hj with hnull
    obtain rfl := Option.some.inj hj
    exact ⟨rfl, by simpa using hnull⟩
  · have hslot : rootSlot root 0 = root.rnode := by
      rw [rootSlot, if_pos (by positivity), hzero, slotAt_zero]
    rw [rootItem, hslot, hne]
    rfl
  · intro hpos hne lo lim hlo hlt hlim
    have hok := h.slot
    have hle := h.height_le
    obtain ⟨k, hk⟩ := exists_eq_succ_of_ne_zero hpos.ne'
    rw [hk] at hok hle hlt ⊢
    obtain ⟨hsh, hend⟩ := top_block h0 hle hlt
    rw [← hend]
    refine (lookupNode_spec hb hlim hok hne hsh hlo).congr fun j _ hj => ?_
    rw [hend] at hj
    rw [nodeItem, rootItem, rootSlot, hk, if_pos hj]

lemma radixTreeGangLookupTag_spec (h0 : 0 < shift) (hb : shift ≤ L.bits) (h : RootOk L root)
    (tag : Fin 2) (hfirst : firstIndex < 2 ^ L.bits)
    (hmax : 0 < maxItems) :
    radixTreeGangLookupTag L root firstIndex maxItems tag
      = some ((itemsIn (rootTagItem root tag) firstIndex (2 ^ L.bits)).take maxItems) := by
  unfold radixTreeGangLookupTag
  cases htag : root.tags tag with
  | false =>
    rw [if_neg (by simp), itemsIn_none, take_nil]
    intro j _ _
    have hj : ¬ rootTag root tag j = true := fun hj => by
      rw [(h.tags_iff tag).2 ⟨j, hj⟩] at htag
      cases htag
    rw [rootTagItem, if_neg hj]
  | true =>
    rw [if_pos rfl]
    refine gangLookup_spec h (fun j slot hj => ?_) (fun hzero hne => ?_) ?_ hfirst hmax
    · rw [rootTagItem] at hj
      split_ifs at hj with hset
      obtain rfl := Option.some.inj hj
      exact ⟨rfl, h.present_of_tag hset⟩
    · have hslot : rootSlot root 0 = root.rnode := by
        rw [rootSlot, if_pos (by positivity), hzero, slotAt_zero]
      have hset : rootTag root tag 0 = true := by
        rw [rootTag, if_pos hzero, htag]
        rfl
      rw [rootTagItem, if_pos hset, hslot]
    · intro hpos hne lo lim hlo hlt hlim
      have hok := h.slot
      have hle := h.height_le
      obtain ⟨k, hk⟩ := exists_eq_succ_of_ne_zero hpos.ne'
      rw [hk] at hok hle hlt ⊢
      obtain ⟨hsh, hend⟩ := top_block h0 hle hlt
      rw [← hend]
      refine (lookupTagNode_spec hb tag hlim hok hne hsh hlo).congr fun j _ hj => ?_
      rw [hend] at hj
      rw [nodeTagItem, rootTagItem, rootTag, rootSlot, hk, if_pos hj, if_neg (succ_ne_zero k),
        decide_eq_true hj, Bool.true_and]

def mapItem (m : TaggedMap α) (tag : Option (Fin 2)) (j : ℕ) : Option α :=
  (m j).bind fun (item, tags) => if tag.all tags then some item else none

lemma Holds.rootItem (h : Holds L t m) (j : ℕ) :
    rootItem t.root j = (mapItem m none j).map .leaf := by
  rw [Lib.rootItem, h.slots, mapItem]
  cases m j <;> rfl

lemma Holds.rootTagItem (h : Holds L t m) (tag : Fin 2) (j : ℕ) :
    rootTagItem t.root tag j = (mapItem m (some tag) j).map .leaf := by
  rw [Lib.rootTagItem, h.slots, h.tags, mapItem]
  cases m j with
  | none => rfl
  | some x =>
    obtain ⟨item, tags⟩ := x
    cases htag : tags tag <;> simp [htag]

end LinuxKernel.Lib
