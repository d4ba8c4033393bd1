import LinuxKernel.Idr

/-!
# The tree of layers

`LayerOk` is the state of the tree between calls; what a leaf keeps is a parameter, so that the tree
serves `struct idr` and `struct ida` alike. The search of `sub_alloc` goes through the ids in order:
what it has passed is full.
-/

namespace LinuxKernel.Lib

open SlotTree Function

variable {b l i j h : ℕ} {α : Type*} {m : Fin (2 ^ b)} {id : CInt} {info : LayerInfo b}
  {ary : Fin (2 ^ b) → IdrSlot b α} {t t' : IdrSlot b α} {free : IdFree b α}
  {leafOk : LayerInfo b → (Fin (2 ^ b) → IdrSlot b α) → Prop} {p new : IdrLayer b α}

lemma msb_eq_false (h : id.toNat < 2 ^ 31) : id.msb = false := by
  rw [BitVec.msb_eq_false_iff_two_mul_lt]
  omega

lemma sshiftRight_toNat (h : id.toNat < 2 ^ 31) (k : ℕ) :
    (id.sshiftRight k).toNat = id.toNat / 2 ^ k := by
  rw [BitVec.sshiftRight_eq_of_msb_false (msb_eq_false h), BitVec.toNat_ushiftRight,
    Nat.shiftRight_eq_div_pow]

lemma idIndex_eq (l : ℕ) (h : id.toNat < 2 ^ 31) :
    idIndex b l id = digit b l id.toNat := by
  refine Fin.ext ?_
  rw [digit_val, idIndex]
  simp only [sshiftRight_toNat h]

lemma one_shiftLeft_toNat {k : ℕ} (hk : k ≤ 30) : (1#32 <<< k).toNat = 2 ^ k := by
  have hlt : 2 ^ k ≤ 2 ^ 30 := Nat.pow_le_pow_right (by omega) hk
  have h1 : (1#32 <<< k) = BitVec.twoPow 32 k := by rw [BitVec.twoPow_eq]
  rw [h1, BitVec.toNat_twoPow, Nat.mod_eq_of_lt (by omega)]

lemma shiftLeft_sle {k : ℕ} (hk : k ≤ 30) (h : id.toNat < 2 ^ 31) :
    (1#32 <<< k).sle id = decide (2 ^ k ≤ id.toNat) := by
  have hlt : 2 ^ k ≤ 2 ^ 30 := Nat.pow_le_pow_right (by omega) hk
  have h1 := one_shiftLeft_toNat hk
  rw [BitVec.sle_eq_decide, BitVec.toInt_eq_toNat_of_msb (msb_eq_false h),
    BitVec.toInt_eq_toNat_of_msb (msb_eq_false (by rw [h1]; omega)), h1, decide_eq_decide]
  exact_mod_cast Iff.rfl

lemma or_low_mask (i k : ℕ) : i ||| (2 ^ k - 1) = i / 2 ^ k * 2 ^ k + (2 ^ k - 1) := by
  have hlt : 2 ^ k - 1 < 2 ^ k := Nat.sub_lt (by positivity) (by omega)
  rw [mul_comm, Nat.two_pow_add_eq_or_of_lt hlt]
  refine Nat.eq_of_testBit_eq fun j => ?_
  rw [Nat.testBit_or, Nat.testBit_or, Nat.testBit_two_pow_mul, Nat.testBit_two_pow_sub_one,
    Nat.testBit_div_two_pow]
  by_cases hj : j < k
  · simp [hj]
  · have : k ≤ j := by omega
    simp [hj, this]

lemma upId_toNat {k : ℕ} (hk : k ≤ 30) (h : id.toNat < 2 ^ 31) :
    ((id ||| (1#32 <<< k - 1#32)) + 1#32).toNat = (id.toNat / 2 ^ k + 1) * 2 ^ k := by
  have hpos : 0 < 2 ^ k := by positivity
  have hlt : 2 ^ k ≤ 2 ^ 30 := Nat.pow_le_pow_right (by omega) hk
  have hmask : (1#32 <<< k - 1#32).toNat = 2 ^ k - 1 := by
    rw [BitVec.toNat_sub, one_shiftLeft_toNat hk, BitVec.toNat_ofNat]
    omega
  have hle := Nat.div_mul_le_self id.toNat (2 ^ k)
  rw [BitVec.toNat_add, BitVec.toNat_or, hmask, or_low_mask, add_mul, one_mul,
    BitVec.toNat_ofNat]
  omega

lemma xor_digits {n m : ℕ} (hn : n < 2 ^ b) (hm : m < 2 ^ b) (y : ℕ) :
    (2 ^ b * y + n) ^^^ n ^^^ m = 2 ^ b * y + m := by
  rw [Nat.two_pow_add_eq_or_of_lt hn, Nat.two_pow_add_eq_or_of_lt hm]
  refine Nat.eq_of_testBit_eq fun j => ?_
  simp only [Nat.testBit_xor, Nat.testBit_or, Nat.testBit_two_pow_mul]
  by_cases hj : b ≤ j
  · have hpow : 2 ^ b ≤ 2 ^ j := Nat.pow_le_pow_right (by omega) hj
    rw [Nat.testBit_lt_two_pow (hn.trans_le hpow), Nat.testBit_lt_two_pow (hm.trans_le hpow)]
    simp
  · simp [hj]

lemma setDigit_toNat (hk : b * (l + 1) ≤ 30) (h : id.toNat < 2 ^ 31) (m : Fin (2 ^ b)) :
    ((id.sshiftRight (b * l) ^^^ BitVec.ofNat 32 (digit b l id.toNat) ^^^ BitVec.ofNat 32 m)
        <<< (b * l)).toNat
      = id.toNat / 2 ^ (b * (l + 1)) * 2 ^ (b * (l + 1)) + m.val * 2 ^ (b * l) := by
  have hb : 2 ^ b ≤ 2 ^ 30 := Nat.pow_le_pow_right (by omega) (by rw [Nat.mul_succ] at hk; omega)
  have hP : 2 ^ (b * (l + 1)) ≤ 2 ^ 30 := Nat.pow_le_pow_right (by omega) hk
  have hpow : 2 ^ (b * (l + 1)) = 2 ^ b * 2 ^ (b * l) := by rw [← pow_add, Nat.mul_succ, add_comm]
  have hx : id.toNat / 2 ^ (b * l)
      = 2 ^ b * (id.toNat / 2 ^ (b * (l + 1))) + digit b l id.toNat := by
    rw [digit_val, ← div_pow_succ, Nat.div_add_mod]
  have hn := (digit b l id.toNat).isLt
  have hm := m.isLt
  have hval : (id.sshiftRight (b * l) ^^^ BitVec.ofNat 32 (digit b l id.toNat)
      ^^^ BitVec.ofNat 32 m).toNat = 2 ^ b * (id.toNat / 2 ^ (b * (l + 1))) + m := by
    rw [BitVec.toNat_xor, BitVec.toNat_xor, sshiftRight_toNat h, BitVec.toNat_ofNat,
      BitVec.toNat_ofNat, Nat.mod_eq_of_lt (by omega), Nat.mod_eq_of_lt (by omega), hx]
    exact xor_digits hn hm _
  have hle := Nat.div_mul_le_self id.toNat (2 ^ (b * (l + 1)))
  have hmul : m.val * 2 ^ (b * l) < 2 ^ (b * (l + 1)) := by
    rw [hpow]
    exact Nat.mul_lt_mul_of_pos_right hm (by positivity)
  have hsum : (2 ^ b * (id.toNat / 2 ^ (b * (l + 1))) + m) * 2 ^ (b * l)
      = id.toNat / 2 ^ (b * (l + 1)) * 2 ^ (b * (l + 1)) + m.val * 2 ^ (b * l) := by
    rw [hpow]
    ring
  rw [BitVec.toNat_shiftLeft, hval, Nat.shiftLeft_eq, hsum, Nat.mod_eq_of_lt (by omega)]

lemma two_pow_mul_succ (b l : ℕ) : 2 ^ (b * (l + 1)) = 2 ^ b * 2 ^ (b * l) := by
  rw [← pow_add, Nat.mul_succ, add_comm]

lemma div_eq_digit (l i : ℕ) :
    i / 2 ^ (b * l) = 2 ^ b * (i / 2 ^ (b * (l + 1))) + (digit b l i).val := by
  rw [digit_val, ← div_pow_succ, Nat.div_add_mod]

lemma digit_le_digit (hq : j / 2 ^ (b * (l + 1)) = i / 2 ^ (b * (l + 1))) (hij : i ≤ j) :
    (digit b l i).val ≤ (digit b l j).val := by
  have h1 := div_eq_digit (b := b) l i
  have h2 := div_eq_digit (b := b) l j
  have h3 := Nat.div_le_div_right (c := 2 ^ (b * l)) hij
  rw [hq] at h2
  omega

lemma lt_of_lt_block (hij : i ≤ j) (hlt : j < (i / 2 ^ (b * (l + 1)) + 1) * 2 ^ (b * (l + 1))) :
    j / 2 ^ (b * (l + 1)) = i / 2 ^ (b * (l + 1)) := by
  refine le_antisymm ?_ (Nat.div_le_div_right hij)
  exact Nat.lt_succ_iff.1 ((Nat.div_lt_iff_lt_mul (by positivity)).2 hlt)

/-- The first id of the block that `m` names in the layer of `i`. -/
def blockStart (b l i m : ℕ) : ℕ := i / 2 ^ (b * (l + 1)) * 2 ^ (b * (l + 1)) + m * 2 ^ (b * l)

lemma blockStart_div (m : Fin (2 ^ b)) :
    blockStart b l i m / 2 ^ (b * l) = 2 ^ b * (i / 2 ^ (b * (l + 1))) + m := by
  have hpos : 0 < 2 ^ (b * l) := by positivity
  unfold blockStart
  rw [show i / 2 ^ (b * (l + 1)) * 2 ^ (b * (l + 1)) + m.val * 2 ^ (b * l)
      = (2 ^ b * (i / 2 ^ (b * (l + 1))) + m.val) * 2 ^ (b * l) by rw [two_pow_mul_succ]; ring]
  exact Nat.mul_div_cancel _ hpos

lemma blockStart_block (m : Fin (2 ^ b)) :
    blockStart b l i m / 2 ^ (b * (l + 1)) = i / 2 ^ (b * (l + 1)) := by
  rw [← div_pow_succ, blockStart_div, Nat.mul_add_div (by positivity), Nat.div_eq_of_lt m.isLt,
    add_zero]

lemma digit_blockStart (m : Fin (2 ^ b)) : digit b l (blockStart b l i m) = m := by
  refine Fin.ext ?_
  rw [digit_val, blockStart_div, Nat.mul_add_mod, Nat.mod_eq_of_lt m.isLt]

lemma lt_blockStart (hm : digit b l i < m) : i < blockStart b l i m := by
  have h1 := div_eq_digit (b := b) l i
  have h2 : i / 2 ^ (b * l) < blockStart b l i m / 2 ^ (b * l) := by
    rw [blockStart_div, h1]
    exact Nat.add_lt_add_left hm _
  by_contra hge
  exact absurd (Nat.div_le_div_right (c := 2 ^ (b * l)) (not_lt.1 hge)) (by omega)

lemma digit_lt_of_lt_blockStart (hij : i ≤ j) (hlt : j < blockStart b l i m) :
    j / 2 ^ (b * (l + 1)) = i / 2 ^ (b * (l + 1)) ∧ digit b l j < m := by
  have hm := m.isLt
  have hq : j / 2 ^ (b * (l + 1)) = i / 2 ^ (b * (l + 1)) := by
    refine lt_of_lt_block hij (hlt.trans_le ?_)
    unfold blockStart
    rw [add_mul, one_mul]
    refine Nat.add_le_add_left ?_ _
    rw [two_pow_mul_succ]
    exact Nat.mul_le_mul_right _ hm.le
  refine ⟨hq, ?_⟩
  by_contra hge
  have h2 := div_eq_digit (b := b) l j
  have h3 : blockStart b l i m / 2 ^ (b * l) ≤ j / 2 ^ (b * l) := by
    rw [blockStart_div, h2, hq]
    exact Nat.add_le_add_left (not_lt.1 hge) _
  have h4 : blockStart b l i m = blockStart b l i m / 2 ^ (b * l) * 2 ^ (b * l) := by
    rw [blockStart_div]
    unfold blockStart
    rw [two_pow_mul_succ]
    ring
  have h5 := Nat.div_mul_le_self j (2 ^ (b * l))
  have h6 := Nat.mul_le_mul_right (2 ^ (b * l)) h3
  omega

def slotFull : IdrSlot b α → Bool
  | .node info _ => info.full
  | _ => false

structure InnerOk (l : ℕ) (info : LayerInfo b) (ary : Fin (2 ^ b) → IdrSlot b α) : Prop where
  layer : info.layer = l + 1
  count : info.count = slotCount ary
  bits : ∀ n, info.bitmap n = slotFull (ary n)

def LayerOk (leafOk : LayerInfo b → (Fin (2 ^ b) → IdrSlot b α) → Prop) : ℕ → IdrSlot b α → Prop
  | 0, .node _ _ => False
  | 0, _ => True
  | _ + 1, .null => True
  | _ + 1, .leaf _ => False
  | 1, .node info ary => (info.layer = 0 ∧ leafOk info ary) ∧ ∀ n, LayerOk leafOk 0 (ary n)
  | l + 2, .node info ary => InnerOk l info ary ∧ ∀ n, LayerOk leafOk (l + 1) (ary n)

structure LeafRule (leafOk : LayerInfo b → (Fin (2 ^ b) → IdrSlot b α) → Prop) : Prop where
  zero : leafOk ⟨fun _ => false, 0, 0⟩ fun _ => .null
  empty : ∀ info ary, leafOk info ary → info.count = 0 →
    (∀ n, ary n = .null) ∧ ∀ n, info.bitmap n = false
  remove : ∀ info ary n, leafOk info ary → info.bitmap n = true →
    leafOk { info.clearBit n with count := info.count - 1 } (Function.update ary n .null)

lemma LayerOk.null (h : ℕ) : LayerOk leafOk h .null := by rcases h with _ | _ | h <;> trivial

lemma LayerOk.node_cases (ht : LayerOk leafOk (h + 1) t) :
    t = .null ∨ ∃ info ary, t = .node info ary := by
  rcases t with _ | a | ⟨info, ary⟩
  · exact .inl rfl
  · rcases h with _ | h <;> exact ht.elim
  · exact .inr ⟨info, ary, rfl⟩

lemma LayerOk.kids (ht : LayerOk leafOk (h + 1) (.node info ary)) (n : Fin (2 ^ b)) :
    LayerOk leafOk h (ary n) := by rcases h with _ | h <;> exact ht.2 n

lemma LayerOk.layer (ht : LayerOk leafOk (h + 1) (.node info ary)) : info.layer = h := by
  rcases h with _ | h
  · exact ht.1.1
  · exact ht.1.layer

def usedAt : ℕ → IdrSlot b α → ℕ → Bool := bitAt LayerInfo.bitmap

lemma slotFull_iff : ∀ {h : ℕ} {t : IdrSlot b α}, LayerOk leafOk (h + 1) t →
    (slotFull t = true ↔ t.isNull = false ∧ ∀ i, usedAt (h + 1) t i = true) := by
  intro h
  induction h with
  | zero =>
    intro t ht
    rcases ht.node_cases with rfl | ⟨info, ary, rfl⟩
    · simp [slotFull]
    simp only [slotFull, LayerInfo.full, decide_eq_true_eq, isNull_node, true_and]
    constructor
    · exact fun hf i => hf _
    · intro hu n
      obtain ⟨i, -, rfl, -⟩ := exists_digit 0 n (show 0 < 2 ^ (b * 0) by positivity)
      exact hu i
  | succ h ih =>
    intro t ht
    rcases ht.node_cases with rfl | ⟨info, ary, rfl⟩
    · simp [slotFull]
    simp only [slotFull, LayerInfo.full, decide_eq_true_eq, isNull_node, true_and, ht.1.bits]
    constructor
    · exact fun hf i => ((ih (ht.kids _)).1 (hf _)).2 i
    intro hu n
    have hne : (ary n).isNull = false := by
      by_contra hne
      have hnull : ary n = .null := eq_null_of_isNull (by simpa using hne)
      obtain ⟨j, -, hj, -⟩ := exists_digit (h + 1) n (show 0 < 2 ^ (b * (h + 1)) by positivity)
      have := hu j
      rw [usedAt, bitAt_succ, hj, hnull, bitAt_null] at this
      simp at this
    refine (ih (ht.kids n)).2 ⟨hne, fun i => ?_⟩
    obtain ⟨j, -, hj, hmod⟩ := exists_digit (h + 1) n
      (Nat.mod_lt i (show 0 < 2 ^ (b * (h + 1)) by positivity))
    rw [Nat.mod_mod] at hmod
    have := hu j
    rw [usedAt, bitAt_succ, hj, bitAt_mod _ hmod] at this
    exact this

lemma LayerOk.usedAt_of_bit
    (ht : LayerOk leafOk (h + 1) (.node info ary)) (hb : info.bitmap (digit b h j) = true) :
    usedAt (h + 1) (.node info ary) j = true := by
  rcases h with _ | h
  · exact hb
  · rw [ht.1.bits] at hb
    exact ((slotFull_iff (ht.kids _)).1 hb).2 j

section

variable (leafOk : LayerInfo b → (Fin (2 ^ b) → IdrSlot b α) → Prop) {present full : Bool}

/-- A layer of level `l + 1` above the layer in hand, if there is one, which is full or not. -/
structure FrameOk (l : ℕ) (present full : Bool) (f : SlotFrame (LayerInfo b) α (2 ^ b)) : Prop where
  layer : f.payload.layer = l + 1
  count : f.payload.count
    = (slotCount (Function.update f.slots f.offset .null) : ℤ) + if present then 1 else 0
  bit : f.payload.bitmap f.offset = full
  bits : ∀ n, n ≠ f.offset → f.payload.bitmap n = slotFull (f.slots n)
  kids : ∀ n, n ≠ f.offset → LayerOk leafOk (l + 1) (f.slots n)

/-- The layers above a layer of level `l`. -/
def PathOk : ℕ → Bool → Bool → IdrPath b α → Prop
  | _, _, _, [] => True
  | l, present, full, f :: pa => FrameOk leafOk l present full f
      ∧ PathOk (l + 1) true f.payload.full pa

variable {leafOk}

lemma slotCount_update (slots : Fin (2 ^ b) → IdrSlot b α) (o : Fin (2 ^ b)) (t : IdrSlot b α) :
    slotCount (update slots o t)
      = slotCount (update slots o .null) + if t.isNull then 0 else 1 := by
  have h := slotCount_update_add (update slots o .null) o (t := t) (by simp)
  rw [update_idem] at h
  cases ht : t.isNull with
  | true => rw [eq_null_of_isNull ht]; rfl
  | false => exact h ht

lemma FrameOk.plug {f : SlotFrame (LayerInfo b) α (2 ^ b)} (hf : FrameOk leafOk l present full f)
    (ht : LayerOk leafOk (l + 1) t) (hp : t.isNull = !present)
    (hfull : slotFull t = full) : LayerOk leafOk (l + 2) (f.plug t) := by
  refine ⟨⟨hf.layer, ?_, fun n => ?_⟩, fun n => ?_⟩
  · rw [slotCount_update, hp, hf.count]
    cases present <;> simp
  · by_cases hn : n = f.offset
    · rw [hn, update_self, hf.bit, hfull]
    · rw [update_of_ne hn, hf.bits n hn]
  · by_cases hn : n = f.offset
    · rw [hn, update_self]
      exact ht
    · rw [update_of_ne hn]
      exact hf.kids n hn

lemma PathOk.plugAll : ∀ {pa : IdrPath b α} {l : ℕ} {present full : Bool} {t : IdrSlot b α},
    PathOk leafOk l present full pa → LayerOk leafOk (l + 1) t → t.isNull = !present →
    slotFull t = full → LayerOk leafOk (l + 1 + pa.length) (plugAll pa t)
  | [], _, _, _, _, _, ht, _, _ => ht
  | f :: pa, l, _, _, t, hpa, ht, hp, hfull => by
    rw [List.length_cons, show l + 1 + (pa.length + 1) = l + 1 + 1 + pa.length by omega]
    exact PathOk.plugAll hpa.2 (hpa.1.plug ht hp hfull) rfl rfl

lemma LayerOk.frame
    (ht : LayerOk leafOk (l + 2) (.node info ary)) (m : Fin (2 ^ b)) :
    FrameOk leafOk l (!(ary m).isNull) (slotFull (ary m)) ⟨info, ary, m⟩ := by
  refine ⟨ht.1.layer, ?_, ht.1.bits m, fun n _ => ht.1.bits n, fun n _ => ht.2 n⟩
  have h := slotCount_update ary m (ary m)
  rw [update_eq_self] at h
  simp only [ht.1.count, h]
  cases (ary m).isNull <;> simp

lemma LayerOk.frame_new
    (ht : LayerOk leafOk (l + 2) (.node info ary)) (hm : ary m = .null) :
    FrameOk leafOk l true false ⟨{ info with count := info.count + 1 }, ary, m⟩ := by
  have h := ht.frame m
  rw [hm] at h
  refine ⟨h.layer, ?_, h.bit, h.bits, h.kids⟩
  have := h.count
  simp only [isNull_null, Bool.not_true, Bool.false_eq_true, if_false, if_true] at this ⊢
  rw [this]
  ring

end

structure SameTree (h : ℕ) (t t' : IdrSlot b α) : Prop where
  used : ∀ j, usedAt h t' j = usedAt h t j
  slots : ∀ j, slotAt h t' j = slotAt h t j

lemma SameTree.refl (h : ℕ) (t : IdrSlot b α) : SameTree h t t := ⟨fun _ => rfl, fun _ => rfl⟩

lemma SameTree.trans {t'' : IdrSlot b α} (h1 : SameTree h t t')
    (h2 : SameTree h t' t'') :
    SameTree h t t'' :=
  ⟨fun j => (h2.used j).trans (h1.used j), fun j => (h2.slots j).trans (h1.slots j)⟩

lemma SameTree.plugAll (h : SameTree (l + 1) t t')
    (pa : IdrPath b α) :
    SameTree (l + 1 + pa.length) (plugAll pa t) (plugAll pa t') :=
  ⟨plugAll_bitAt_congr h.used, plugAll_slotAt_congr h.slots⟩

lemma emptyLayer_used (h : ℕ)
    (hary : ∀ n, ary n = .null) (hbits : ∀ n, info.bitmap n = false) :
    SameTree (h + 1) .null (.node info ary) := by
  refine ⟨fun j => ?_, fun j => ?_⟩
  · rw [usedAt, bitAt_of_slots_null hary hbits, bitAt_null]
  · rw [slotAt_of_slots_null hary, slotAt_null]

lemma SameTree.newChild {info' : LayerInfo b} (hm : ary m = .null) (ht : SameTree (l + 1) .null t) :
    SameTree (l + 2) (.node info ary) (.node info' (update ary m t)) :=
  ⟨bitAt_succ_congr (fun j => by rw [hm]; exact ht.used j),
    slotAt_congr fun j => by rw [hm]; exact ht.slots j⟩

/-- A layer on `id_free`; `ary[0]` is the link. -/
structure FreeLayer (p : IdrLayer b α) : Prop where
  bits : ∀ n, p.info.bitmap n = false
  count : p.info.count = 0
  ary : ∀ n, n ≠ 0 → p.ary n = .null

structure FreeOk (free : IdFree b α) : Prop where
  layers : ∀ p ∈ free.list, FreeLayer p
  cnt : free.cnt = free.list.length

lemma FreeOk.get {free' : IdFree b α} (h : FreeOk free)
    (hg : getFromFreeList free = some (p, free')) :
    (∀ n, p.info.bitmap n = false) ∧ p.info.count = 0 ∧ (∀ n, p.ary n = .null) ∧ FreeOk free' := by
  obtain ⟨list, cnt⟩ := free
  cases list with
  | nil => simp [getFromFreeList] at hg
  | cons q list =>
    simp only [getFromFreeList, Option.some.injEq, Prod.mk.injEq] at hg
    obtain ⟨rfl, rfl⟩ := hg
    have hq := h.layers q (by simp)
    refine ⟨hq.bits, hq.count, fun n => ?_, fun r hr => h.layers r (by simp [hr]), ?_⟩
    · by_cases hn : n = 0
      · simp [hn]
      · simp [hn, hq.ary n hn]
    · have := h.cnt
      simp only [List.length_cons] at this ⊢
      omega

lemma FreeOk.move (h : FreeOk free) (hp : FreeLayer p) :
    FreeOk (moveToFreeList free p) := by
  refine ⟨fun q hq => ?_, ?_⟩
  · rcases List.mem_cons.1 hq with rfl | hq
    · exact hp
    · exact h.layers q hq
  · have := h.cnt
    simp only [moveToFreeList, List.length_cons]
    omega

section

variable (leafOk : LayerInfo b → (Fin (2 ^ b) → IdrSlot b α) → Prop) {t0 top : IdrSlot b α}
  {layers i0 : ℕ} {s : SubState b α}

/-- What holds of `sub_alloc` before each pass, in a search from `i0` of the tree `t0`. -/
structure SubInv (t0 : IdrSlot b α) (layers i0 : ℕ) (s : SubState b α) : Prop where
  level : s.l + 1 + s.pa.length = layers
  lo : i0 ≤ s.id.toNat
  hi : s.id.toNat < 2 ^ (b * layers)
  path : PathOk leafOk s.l true (slotFull s.p.slot) s.pa
  onPath : OnPath (s.id.toNat / 2 ^ (b * (s.l + 1))) s.pa
  ok : LayerOk leafOk (s.l + 1) s.p.slot
  same : SameTree layers t0 s.top
  passed : ∀ j, i0 ≤ j → j < s.id.toNat → usedAt layers t0 j = true
  free : FreeOk s.free

structure SubFound (t0 : IdrSlot b α) (layers i0 : ℕ) (id : CInt) (p : IdrLayer b α)
    (pa : IdrPath b α) :
    Prop where
  level : 1 + pa.length = layers
  lo : i0 ≤ id.toNat
  hi : id.toNat < 2 ^ (b * layers)
  path : PathOk leafOk 0 true false pa
  onPath : OnPath (id.toNat / 2 ^ b) pa
  ok : LayerOk leafOk 1 p.slot
  bit : p.info.bitmap (digit b 0 id.toNat) = false
  same : SameTree layers t0 (plugAll pa p.slot)
  passed : ∀ j, i0 ≤ j → j < id.toNat → usedAt layers t0 j = true

structure SubStop (t0 : IdrSlot b α) (layers i0 : ℕ) (rc : ℤ) (id : CInt) (top : IdrSlot b α) :
    Prop where
  ok : LayerOk leafOk layers top
  same : SameTree layers t0 top
  isNull : top.isNull = false
  rc : rc = -1 ∨ rc = IDR_NEED_TO_GROW ∧ id.toNat = 2 ^ (b * layers)
    ∧ ∀ j, i0 ≤ j → j < 2 ^ (b * layers) → usedAt layers t0 j = true

def SubPost (t0 : IdrSlot b α) (layers i0 : ℕ) : SubExit b α → Prop
  | .found id p pa free => SubFound leafOk t0 layers i0 id p pa ∧ FreeOk free
  | .stop rc id top free => SubStop leafOk t0 layers i0 rc id top ∧ FreeOk free
  | .bug => False

variable {leafOk}

lemma plugAll_isNull : ∀ {pa : IdrPath b α} {t : IdrSlot b α}, t.isNull = false →
    (plugAll pa t).isNull = false
  | [], _, h => h
  | f :: pa, t, _ => show (plugAll pa (f.plug t)).isNull = false from plugAll_isNull rfl

lemma SubInv.top_ok (h : SubInv leafOk t0 layers i0 s) : LayerOk leafOk layers s.top := by
  have := h.path.plugAll h.ok rfl rfl
  rwa [h.level] at this

lemma SubInv.used (h : SubInv leafOk t0 layers i0 s)
    (hj : j / 2 ^ (b * (s.l + 1)) = s.id.toNat / 2 ^ (b * (s.l + 1))) :
    usedAt layers t0 j = usedAt (s.l + 1) s.p.slot j := by
  have hp := plugAll_bitAt (f := LayerInfo.bitmap) (t := s.p.slot) (hj ▸ h.onPath)
  rw [h.level] at hp
  rw [← h.same.used]
  exact hp

lemma SubInv.used_of_bit (h : SubInv leafOk t0 layers i0 s)
    (hj : j / 2 ^ (b * (s.l + 1)) = s.id.toNat / 2 ^ (b * (s.l + 1)))
    (hb : s.p.info.bitmap (digit b s.l j) = true) : usedAt layers t0 j = true :=
  (h.used hj).trans (h.ok.usedAt_of_bit hb)

lemma SubInv.lt (hlay : b * layers ≤ 30) (h : SubInv leafOk t0 layers i0 s) :
    s.id.toNat < 2 ^ 31 := by
  have : 2 ^ (b * layers) ≤ 2 ^ 30 := Nat.pow_le_pow_right (by omega) hlay
  have := h.hi
  omega

lemma SubInv.level_le (hlay : b * layers ≤ 30) (h : SubInv leafOk t0 layers i0 s) :
    b * (s.l + 1) ≤ 30 := by
  have := h.level
  exact (Nat.mul_le_mul_left b (by omega)).trans hlay

lemma SubInv.passed_block (h : SubInv leafOk t0 layers i0 s)
    (hbits : ∀ m : Fin (2 ^ b), digit b s.l s.id.toNat ≤ m → s.p.info.bitmap m = true)
    (hij : i0 ≤ j)
    (hj : j < (s.id.toNat / 2 ^ (b * (s.l + 1)) + 1) * 2 ^ (b * (s.l + 1))) :
    usedAt layers t0 j = true := by
  rcases lt_or_ge j s.id.toNat with hlt | hge
  · exact h.passed j hij hlt
  · have hq := lt_of_lt_block hge hj
    exact h.used_of_bit hq (hbits _ (digit_le_digit hq hge))

lemma subAllocStart_spec (id : CInt) (hpos : 0 < layers)
    (hok : LayerOk leafOk layers top) (hne : top.isNull = false) (hsame : SameTree layers t0 top)
    (hlo : i0 ≤ id.toNat) (hhi : id.toNat < 2 ^ (b * layers))
    (hpassed : ∀ j, i0 ≤ j → j < id.toNat → usedAt layers t0 j = true) (hfree : FreeOk free) :
    ∃ s, subAllocStart id layers free top = .again s ∧ SubInv leafOk t0 layers i0 s
      ∧ s.id = id ∧ s.l = layers - 1 := by
  obtain ⟨h, rfl⟩ := Nat.exists_eq_succ_of_ne_zero hpos.ne'
  rcases hok.node_cases with rfl | ⟨info, ary, rfl⟩
  · simp at hne
  · exact ⟨_, rfl, ⟨rfl, hlo, hhi, trivial, trivial, hok, hsame, hpassed, hfree⟩, rfl, rfl⟩

lemma variant_lt_of_id_lt {s' : SubState b α} (hid : s.id.toNat < s'.id.toNat)
    (hl : s'.l ≤ layers) :
    s'.variant layers < s.variant layers := by
  have hmul : (2 ^ 32 - s'.id.toNat + 1) * (layers + 1) ≤ (2 ^ 32 - s.id.toNat) * (layers + 1) :=
    Nat.mul_le_mul_right _ (by omega)
  rw [add_mul, one_mul] at hmul
  unfold SubState.variant
  omega

lemma blockEnd_le (hi : i < 2 ^ (b * layers)) (hl : l ≤ layers) :
    (i / 2 ^ (b * l) + 1) * 2 ^ (b * l) ≤ 2 ^ (b * layers) := by
  have hdvd : 2 ^ (b * l) ∣ 2 ^ (b * layers) := pow_dvd_pow 2 (Nat.mul_le_mul_left b hl)
  calc (i / 2 ^ (b * l) + 1) * 2 ^ (b * l) ≤ 2 ^ (b * layers) / 2 ^ (b * l) * 2 ^ (b * l) :=
        Nat.mul_le_mul_right _ (Nat.div_lt_div_of_lt_of_dvd hdvd hi)
    _ = 2 ^ (b * layers) := Nat.div_mul_cancel hdvd

lemma lt_blockEnd (i l : ℕ) : i < (i / 2 ^ (b * l) + 1) * 2 ^ (b * l) := by
  rw [mul_comm]
  exact Nat.lt_mul_div_succ i (by positivity)

lemma subAllocUp_spec (hlay : b * layers ≤ 30) (h : SubInv leafOk t0 layers i0 s)
    (hbits : ∀ m : Fin (2 ^ b), digit b s.l s.id.toNat ≤ m → s.p.info.bitmap m = true) :
    (subAllocUp layers s).Next (SubInv leafOk t0 layers i0) (SubPost leafOk t0 layers i0)
      (SubState.variant layers) (s.variant layers) := by
  have hlt := h.lt hlay
  have hk := h.level_le hlay
  have hM : 2 ^ (b * layers) ≤ 2 ^ 30 := Nat.pow_le_pow_right (by omega) hlay
  have hlevel := h.level
  have hid := upId_toNat hk hlt
  have hpassed := fun j => h.passed_block hbits (j := j)
  set id := (s.id ||| (1#32 <<< (b * (s.l + 1)) - 1#32)) + 1#32 with hid_def
  -- the next block starts at the end of the tree at the latest
  have hle : id.toNat ≤ 2 ^ (b * layers) := hid ▸ blockEnd_le h.hi (by omega)
  have hup : s.id.toNat < id.toNat := hid ▸ lt_blockEnd _ _
  have hlo := h.lo
  unfold subAllocUp
  simp only [← hid_def]
  rw [mul_comm layers b, shiftLeft_sle hlay (by omega)]
  by_cases hgrow : 2 ^ (b * layers) ≤ id.toNat
  · rw [if_pos (decide_eq_true hgrow)]
    have heq : id.toNat = 2 ^ (b * layers) := le_antisymm hle hgrow
    refine ⟨⟨h.top_ok, h.same, plugAll_isNull rfl,
      Or.inr ⟨rfl, heq, fun j h1 h2 => hpassed j h1 ?_⟩⟩, h.free⟩
    omega
  rw [if_neg (by simpa using hgrow)]
  have hpassed' : ∀ j, i0 ≤ j → j < id.toNat → usedAt layers t0 j = true :=
    fun j h1 h2 => hpassed j h1 (hid ▸ h2)
  cases hpa : s.pa with
  | nil =>
    rw [hpa, List.length_nil, add_zero] at hlevel
    have : 2 ^ (b * (s.l + 1)) ≤ (s.id.toNat / 2 ^ (b * (s.l + 1)) + 1) * 2 ^ (b * (s.l + 1)) :=
      Nat.le_mul_of_pos_left _ (Nat.succ_pos _)
    rw [← hlevel] at hgrow
    omega
  | cons f pa =>
    have hpath := h.path
    have hon := h.onPath
    rw [hpa, List.length_cons] at hlevel
    rw [hpa] at hpath hon
    simp only []
    split_ifs with hsh
    · have hq := congrArg BitVec.toNat hsh
      rw [sshiftRight_toNat hlt, sshiftRight_toNat (by omega)] at hq
      refine ⟨⟨by simp only []; omega, by simp only []; omega, by simp only []; omega, hpath.2, ?_,
        hpath.1.plug h.ok rfl rfl, ?_, hpassed', h.free⟩,
        variant_lt_of_id_lt hup (by simp only []; omega)⟩
      · have hrest := hon.2
        rw [div_pow_succ, hq] at hrest
        exact hrest
      · have hsame := h.same
        rw [SubState.top, hpa] at hsame
        exact hsame
    · obtain ⟨s', he, hinv, hid', hl'⟩ := subAllocStart_spec id (by omega)
        h.top_ok (plugAll_isNull rfl) h.same (by omega) (by omega) hpassed' h.free
      rw [he]
      exact ⟨hinv, variant_lt_of_id_lt (hid' ▸ hup) (by omega)⟩

lemma SubInv.down {c : IdrLayer b α}
    (h : SubInv leafOk t0 layers i0 s) (hl : s.l = l + 1) (hid : s.id.toNat ≤ id.toNat)
    (hblock : id.toNat / 2 ^ (b * (s.l + 1)) = s.id.toNat / 2 ^ (b * (s.l + 1)))
    (hm : digit b s.l id.toNat = m) (hi : id.toNat < 2 ^ (b * layers))
    (hpassed : ∀ j, i0 ≤ j → j < id.toNat → usedAt layers t0 j = true)
    (hframe : FrameOk leafOk l true (slotFull c.slot) ⟨info, s.p.ary, m⟩)
    (hfull : info.full = s.p.info.full) (hc : LayerOk leafOk (l + 1) c.slot)
    (hsame : SameTree (l + 2) s.p.slot (.node info (update s.p.ary m c.slot)))
    (hfree : FreeOk free) :
    SubInv leafOk t0 layers i0 ⟨id, l, c, ⟨info, s.p.ary, m⟩ :: s.pa, free⟩
      ∧ (SubState.mk id l c (⟨info, s.p.ary, m⟩ :: s.pa) free).variant layers
      < s.variant layers := by
  have hlevel := h.level
  have hlo := h.lo
  rw [hl] at hlevel hm hblock
  refine ⟨⟨?_, hlo.trans hid, hi, ⟨hframe, ?_⟩, ⟨?_, ?_⟩, hc, ?_, hpassed, hfree⟩, ?_⟩
  · simp only [List.length_cons]
    omega
  · have hpath := h.path
    rw [hl] at hpath
    simp only [hfull]
    exact hpath
  · rw [← hm, digit_val]
  · have hon := h.onPath
    rw [hl, ← hblock] at hon
    rwa [div_pow_succ]
  · refine h.same.trans ?_
    have := hsame.plugAll s.pa
    rwa [show l + 1 + 1 + s.pa.length = layers from hlevel] at this
  · rcases Nat.eq_or_lt_of_le hid with heq | hlt
    · unfold SubState.variant
      simp only [← heq, hl]
      omega
    · refine variant_lt_of_id_lt hlt ?_
      simp only []
      omega

lemma SubState.idAt_toNat (hk : b * (s.l + 1) ≤ 30)
    (hlt : s.id.toNat < 2 ^ 31) :
    (s.idAt m).toNat
      = if m = digit b s.l s.id.toNat then s.id.toNat else blockStart b s.l s.id.toNat m := by
  unfold SubState.idAt
  rw [idIndex_eq s.l hlt]
  by_cases hm : m = digit b s.l s.id.toNat
  · simp [hm]
  · simp only [ne_eq, hm, not_false_eq_true, if_true, if_false]
    exact setDigit_toNat hk hlt m

lemma SubInv.idAt (hlay : b * layers ≤ 30) (h : SubInv leafOk t0 layers i0 s)
    (hge : digit b s.l s.id.toNat ≤ m)
    (hbelow : ∀ n, digit b s.l s.id.toNat ≤ n → n < m → s.p.info.bitmap n = true) :
    s.id.toNat ≤ (s.idAt m).toNat ∧ (s.idAt m).toNat < 2 ^ (b * layers)
      ∧ (s.idAt m).toNat / 2 ^ (b * (s.l + 1)) = s.id.toNat / 2 ^ (b * (s.l + 1))
      ∧ digit b s.l (s.idAt m).toNat = m
      ∧ ∀ j, i0 ≤ j → j < (s.idAt m).toNat → usedAt layers t0 j = true := by
  rw [SubState.idAt_toNat (h.level_le hlay) (h.lt hlay)]
  split_ifs with hm
  · exact ⟨le_rfl, h.hi, rfl, hm.symm, h.passed⟩
  have hlt : digit b s.l s.id.toNat < m := lt_of_le_of_ne hge (Ne.symm hm)
  have hstart := lt_blockStart hlt
  have hblock := blockStart_block (l := s.l) (i := s.id.toNat) m
  have hend := blockEnd_le h.hi (show s.l + 1 ≤ layers by have := h.level; omega)
  have hlt' := lt_blockEnd (b := b) (blockStart b s.l s.id.toNat m) (s.l + 1)
  rw [hblock] at hlt'
  refine ⟨hstart.le, by omega, hblock, digit_blockStart m, fun j hij hj => ?_⟩
  rcases lt_or_ge j s.id.toNat with hlt | hge
  · exact h.passed j hij hlt
  · obtain ⟨hq, hd⟩ := digit_lt_of_lt_blockStart hge hj
    exact h.used_of_bit hq (hbelow _ (digit_le_digit hq hge) hd)

lemma not_slt_zero (h : id.toNat < 2 ^ 31) : id.slt 0#32 = false := by
  rw [BitVec.slt_zero_eq_msb, msb_eq_false h]

lemma full_eq_false {n : Fin (2 ^ b)} (h : info.bitmap n = false) :
    info.full = false := by
  unfold LayerInfo.full
  rw [decide_eq_false]
  intro hall
  rw [hall] at h
  simp at h

lemma LayerOk.fresh (hrule : LeafRule leafOk)
    (hbits : ∀ n, p.info.bitmap n = false)
    (hcount : p.info.count = 0) (hary : ∀ n, p.ary n = .null) (l : ℕ) :
    LayerOk leafOk (l + 1) (.node { p.info with layer := l } p.ary) := by
  have hary' : p.ary = fun _ => .null := funext hary
  have hbits' : p.info.bitmap = fun _ => false := funext hbits
  rw [hary']
  rcases l with _ | l
  · refine ⟨⟨rfl, ?_⟩, fun _ => trivial⟩
    simp only [hbits', hcount]
    exact hrule.zero
  · refine ⟨⟨rfl, ?_, fun n => hbits n⟩, fun _ => LayerOk.null _⟩
    rw [slotCount_null]
    exact hcount

lemma subAllocPass_spec (hrule : LeafRule leafOk) (hlay : b * layers ≤ 30)
    (h : SubInv leafOk t0 layers i0 s) :
    (subAllocPass layers s).Next (SubInv leafOk t0 layers i0) (SubPost leafOk t0 layers i0)
      (SubState.variant layers) (s.variant layers) := by
  have hlt := h.lt hlay
  unfold subAllocPass
  rw [idIndex_eq s.l hlt]
  cases hfind : findNext (fun i => !s.p.info.bitmap i) (digit b s.l s.id.toNat).val with
  | none =>
    refine subAllocUp_spec hlay h fun m hm => ?_
    simpa using findNext_none hfind m hm
  | some m =>
    obtain ⟨hbit, hge, hbelow⟩ := findNext_some hfind
    have hbit' : s.p.info.bitmap m = false := by simpa using hbit
    obtain ⟨hle, hhi, hblock, hdig, hpassed⟩ := h.idAt hlay hge fun n h1 h2 => by
      simpa using hbelow n h1 h2
    have hM : 2 ^ (b * layers) ≤ 2 ^ 30 := Nat.pow_le_pow_right (by omega) hlay
    simp only [not_slt_zero (show (s.idAt m).toNat < 2 ^ 31 by omega), Bool.false_eq_true, if_false]
    unfold subAllocDown
    cases hl : s.l with
    | zero =>
      have hlevel := h.level
      have hok := h.ok
      have hpath := h.path
      have hon := h.onPath
      rw [← hblock] at hon
      have hfull : slotFull s.p.slot = false := full_eq_false hbit'
      rw [hl] at hlevel hok hpath hon hdig
      rw [zero_add, mul_one] at hon
      refine ⟨⟨by omega, h.lo.trans hle, hhi, hfull ▸ hpath, hon, hok, ?_, h.same, hpassed⟩, h.free⟩
      rw [hdig, hbit']
    | succ l =>
      have hok := h.ok
      rw [hl] at hok
      cases hm : s.p.ary m with
      | leaf a =>
        have := hok.kids m
        rw [hm] at this
        rcases l with _ | l <;> exact this.elim
      | node info ary =>
        have hframe := hok.frame m
        rw [hm] at hframe
        have hc := hok.kids m
        rw [hm] at hc
        refine h.down (c := ⟨info, ary⟩) hl hle hblock hdig hhi hpassed hframe rfl hc ?_ h.free
        rw [show update s.p.ary m (IdrLayer.slot ⟨info, ary⟩) = s.p.ary by
          rw [IdrLayer.slot, ← hm, update_eq_self]]
        exact SameTree.refl _ _
      | null =>
        cases hg : getFromFreeList s.free with
        | none => exact ⟨⟨h.top_ok, h.same, plugAll_isNull rfl, .inl rfl⟩, h.free⟩
        | some r =>
          obtain ⟨new, free⟩ := r
          obtain ⟨hbits, hcount, hary, hfree⟩ := h.free.get hg
          have hfull : slotFull (IdrLayer.slot ⟨{ new.info with layer := l }, new.ary⟩) = false :=
            full_eq_false (hbits 0)
          refine h.down (c := ⟨{ new.info with layer := l },
            new.ary⟩) hl hle hblock hdig hhi hpassed ?_ rfl
            (LayerOk.fresh hrule hbits hcount hary l) ?_ hfree
          · rw [hfull]
            exact hok.frame_new hm
          · exact SameTree.newChild hm (emptyLayer_used l hary hbits)

lemma subAlloc_spec (hrule : LeafRule leafOk) (hlay : b * layers ≤ 30) (hpos : 0 < layers)
    (hok : LayerOk leafOk layers top)
    (hne : top.isNull = false)
    (hid : id.toNat < 2 ^ (b * layers)) (hfree : FreeOk free) :
    ∃ r, subAlloc ⟨top, layers, free⟩ id = some r ∧ SubPost leafOk top layers id.toNat r := by
  obtain ⟨s, he, hinv, -, -⟩ := subAllocStart_spec id hpos hok hne (SameTree.refl _ _) le_rfl hid
    (fun j h1 h2 => by omega) hfree
  unfold subAlloc
  simp only [he]
  exact Pass.run_of_next (fun s hs => subAllocPass_spec hrule hlay hs) _ hinv (Nat.lt_succ_self _)

end

def rootUsed (layers : ℕ) (top : IdrSlot b α) (j : ℕ) : Bool :=
  decide (j < 2 ^ (b * layers)) && usedAt layers top j

def rootPtr (layers : ℕ) (top : IdrSlot b α) (j : ℕ) : IdrSlot b α :=
  if j < 2 ^ (b * layers) then slotAt layers top j else .null

structure SameIds (h : ℕ) (t : IdrSlot b α) (h' : ℕ) (t' : IdrSlot b α) : Prop where
  used : ∀ j, rootUsed h' t' j = rootUsed h t j
  ptrs : ∀ j, rootPtr h' t' j = rootPtr h t j

lemma SameIds.refl (h : ℕ) (t : IdrSlot b α) : SameIds h t h t := ⟨fun _ => rfl, fun _ => rfl⟩

lemma SameIds.trans {h' h'' : ℕ} {t'' : IdrSlot b α} (h1 : SameIds h t h' t')
    (h2 : SameIds h' t' h'' t'') : SameIds h t h'' t'' :=
  ⟨fun j => (h2.used j).trans (h1.used j), fun j => (h2.ptrs j).trans (h1.ptrs j)⟩

lemma SameIds.symm {h' : ℕ} (hs : SameIds h t h' t') : SameIds h' t' h t :=
  ⟨fun j => (hs.used j).symm, fun j => (hs.ptrs j).symm⟩

lemma SameTree.sameIds (hs : SameTree h t t') :
    SameIds h t h t' := by
  refine ⟨fun j => ?_, fun j => ?_⟩
  · rw [rootUsed, hs.used, rootUsed]
  · rw [rootPtr, hs.slots, rootPtr]

lemma SameIds.of_null {h' : ℕ} (ht : SameTree h .null t)
    (ht' : SameTree h' .null t') : SameIds h t h' t' := by
  refine ⟨fun j => ?_, fun j => ?_⟩
  · rw [rootUsed, rootUsed, ht.used, ht'.used]
    simp only [usedAt, bitAt_null, Bool.and_false]
  · simp only [rootPtr, ht.slots, ht'.slots, slotAt_null, ite_self]

lemma LayerOk.empty (hrule : LeafRule leafOk)
    (hp : LayerOk leafOk (h + 1) p.slot)
    (h0 : p.info.count = 0) : (∀ n, p.ary n = .null) ∧ ∀ n, p.info.bitmap n = false := by
  rcases h with _ | h
  · exact hrule.empty _ _ hp.1.2 h0
  have hz : slotCount p.ary = 0 := by
    have hc := hp.1.count
    rw [h0] at hc
    exact_mod_cast hc.symm
  have hary := slotCount_eq_zero hz
  refine ⟨hary, fun n => ?_⟩
  rw [hp.1.bits, hary]
  rfl

lemma LayerOk.raise (hrule : LeafRule leafOk)
    (hp : LayerOk leafOk (h + 1) p.slot) (h0 : p.info.count = 0) :
    LayerOk leafOk (h + 2) (.node { p.info with layer := p.info.layer + 1 } p.ary) := by
  obtain ⟨hary, hbits⟩ := hp.empty hrule h0
  refine ⟨⟨by simp only [hp.layer], ?_, fun n => ?_⟩, fun n => ?_⟩
  · rw [show p.ary = fun _ => .null from funext hary, slotCount_null]
    exact h0
  · rw [hary]
    exact hbits n
  · rw [hary]
    exact LayerOk.null _

lemma LayerOk.grow (hbits : ∀ n, new.info.bitmap n = false)
    (hary : ∀ n, new.ary n = .null) (hp : LayerOk leafOk (h + 1) p.slot) :
    LayerOk leafOk (h + 2) (growLayer new p (h + 2)).slot := by
  have hary' : new.ary = fun _ => .null := funext hary
  have hbit : ∀ n, (growLayer new p (h + 2)).info.bitmap n = (decide (n = 0) && p.info.full) := by
    intro n
    unfold growLayer
    split_ifs with hf
    · by_cases hn : n = 0
      · simp [hn, LayerInfo.setBit, hf]
      · simp [hn, LayerInfo.setBit, hbits]
    · simp [hbits, hf]
  have hslots : (growLayer new p (h + 2)).ary = update (fun _ => .null) 0 p.slot := by
    unfold growLayer
    rw [hary']
  refine ⟨⟨?_, ?_, fun n => ?_⟩, fun n => ?_⟩
  · unfold growLayer
    split_ifs <;> rfl
  · rw [hslots, slotCount_update_add _ _ rfl rfl, slotCount_null]
    unfold growLayer
    split_ifs <;> rfl
  · rw [hbit, hslots]
    by_cases hn : n = 0
    · simp [hn, slotFull, IdrLayer.slot]
    · simp [hn, slotFull]
  · rw [hslots]
    by_cases hn : n = 0
    · rw [hn, update_self]
      exact hp
    · rw [update_of_ne hn]
      exact LayerOk.null _

lemma SameIds.raise
    (hary : ∀ n, n ≠ 0 → ary n = .null) : SameIds (h + 1) (ary 0) (h + 2) (.node info ary) := by
  have hle : 2 ^ (b * (h + 1)) ≤ 2 ^ (b * (h + 2)) :=
    Nat.pow_le_pow_right (by omega) (Nat.mul_le_mul_left _ (by omega))
  refine ⟨fun j => ?_, fun j => ?_⟩
  · unfold rootUsed usedAt
    by_cases hj : j < 2 ^ (b * (h + 2))
    · have hd := digit_eq_zero_iff hj
      rw [decide_eq_true hj, Bool.true_and, bitAt_succ]
      by_cases h0 : digit b (h + 1) j = 0
      · rw [h0, decide_eq_true (hd.1 h0), Bool.true_and]
      · rw [hary _ h0, bitAt_null, decide_eq_false (mt hd.2 h0), Bool.false_and]
    · rw [decide_eq_false hj, decide_eq_false (by omega)]
      rfl
  · unfold rootPtr
    by_cases hj : j < 2 ^ (b * (h + 2))
    · have hd := digit_eq_zero_iff hj
      rw [if_pos hj, slotAt_node]
      by_cases h0 : digit b (h + 1) j = 0
      · rw [h0, if_pos (hd.1 h0)]
      · rw [hary _ h0, slotAt_null, if_neg (mt hd.2 h0)]
    · rw [if_neg hj, if_neg (by omega)]

lemma SameIds.grow (hary : ∀ n, new.ary n = .null) :
    SameIds (h + 1) p.slot (h + 2) (growLayer new p (h + 2)).slot := by
  have hslots : (growLayer new p (h + 2)).ary = update new.ary 0 p.slot := rfl
  have hraise : SameIds (h + 1) ((growLayer new p (h + 2)).ary 0) (h + 2)
      (growLayer new p (h + 2)).slot :=
    SameIds.raise fun n hn => by rw [hslots, update_of_ne hn, hary]
  rwa [hslots, update_self] at hraise

/-- Taking down the layers built gives back `base`. -/
def TearOk (built : ℕ) (p : IdrLayer b α) (base : IdrSlot b α) : Prop :=
  ∀ free : IdFree b α, FreeOk free → ∃ free',
  tearDown built p.slot free = (base, free') ∧ FreeOk free'

lemma TearOk.grow {built : ℕ} {base : IdrSlot b α} (h : TearOk built p base)
    (hary : ∀ n, new.ary n = .null) (layers : ℕ) :
    TearOk (built + 1) (growLayer new p layers) base := by
  intro free hfree
  rw [IdrLayer.slot, tearDown]
  have h0 : (growLayer new p layers).ary 0 = p.slot := by simp only [growLayer, update_self]
  rw [h0]
  refine h _ (hfree.move ⟨fun _ => rfl, rfl, fun n hn => ?_⟩)
  simp only [growLayer, update_of_ne hn, hary]

structure GrowInv (leafOk : LayerInfo b → (Fin (2 ^ b) → IdrSlot b α) → Prop) (layers0 : ℕ)
    (base : IdrSlot b α) (layers built : ℕ) (p : IdrLayer b α) (free : IdFree b α) : Prop where
  pos : 0 < layers
  ok : LayerOk leafOk layers p.slot
  same : SameIds layers0 base layers p.slot
  tear : p.info.count ≠ 0 → TearOk built p base
  free : FreeOk free

lemma growLoop_spec (hrule : LeafRule leafOk) (hcap : b * (maxLevel b - 1) ≤ 30) (id : CInt)
    (hid : id.toNat < 2 ^ 31) {layers0 : ℕ} {base : IdrSlot b α} :
    ∀ {more layers built : ℕ} {p : IdrLayer b α} {free : IdFree b α},
    layers + more = maxLevel b - 1 → GrowInv leafOk layers0 base layers built p free →
    match growLoop id more layers built p free with
    | .error (top, free') => top = base ∧ FreeOk free'
    | .ok (p', layers', free') => LayerOk leafOk layers' p'.slot
        ∧ SameIds layers0 base layers' p'.slot ∧ 0 < layers' ∧ layers' ≤ maxLevel b - 1
        ∧ (layers' = maxLevel b - 1 ∨ id.toNat < 2 ^ (b * layers')) ∧ FreeOk free'
  | 0, layers, built, p, free, hm, h => by
    rw [growLoop]
    exact ⟨h.ok, h.same, h.pos, by omega, .inl (by omega), h.free⟩
  | more + 1, layers, built, p, free, hm, h => by
    have hk : layers * b ≤ 30 := by
      rw [mul_comm]
      exact (Nat.mul_le_mul_left b (by omega)).trans hcap
    rw [growLoop, shiftLeft_sle hk hid]
    by_cases hlt : 2 ^ (layers * b) ≤ id.toNat
    · rw [if_pos (decide_eq_true hlt)]
      obtain ⟨l, hl⟩ := Nat.exists_eq_succ_of_ne_zero h.pos.ne'
      have hok := h.ok
      rw [hl] at hok
      by_cases h0 : p.info.count = 0
      · rw [if_pos h0]
        have hok' := hok.raise hrule h0
        have he := hok.empty hrule h0
        refine growLoop_spec hrule hcap id hid (by omega)
          ⟨by omega, by rw [hl]; exact hok', h.same.trans ?_, fun hne => absurd h0 hne, h.free⟩
        rw [hl]
        exact SameIds.of_null (emptyLayer_used l he.1 he.2) (emptyLayer_used (l + 1) he.1 he.2)
      rw [if_neg h0]
      cases hg : getFromFreeList free with
      | none =>
        obtain ⟨free', ht, hfree⟩ := h.tear h0 free h.free
        rw [ht]
        exact ⟨rfl, hfree⟩
      | some q =>
        obtain ⟨new, free'⟩ := q
        obtain ⟨hbits, -, hary, hfree⟩ := h.free.get hg
        refine growLoop_spec hrule hcap id hid (by omega) ⟨by omega, ?_, ?_, fun _ => ?_, hfree⟩
        · rw [hl]
          exact hok.grow hbits hary
        · rw [hl] at h ⊢
          exact h.same.trans (SameIds.grow hary)
        · exact (h.tear h0).grow hary _
    · rw [if_neg (by simpa using hlt)]
      rw [mul_comm] at hlt
      exact ⟨h.ok, h.same, h.pos, by omega, .inr (by omega), h.free⟩

end LinuxKernel.Lib
