import Mathlib

/-!
# Trees of slot arrays

A node has a payload and `n` slots; a slot is null, a leaf or a node. A pointer into the tree is
the list of the nodes above it, the deepest first, each with the offset of the slot below: writing
through the pointer changes one frame, and `plugAll` reads the tree back.

With `n = 2 ^ b` slots a number's base-`2 ^ b` digits name a slot of a tree of height `h`.
-/

namespace LinuxKernel

open Function

inductive SlotTree (π α : Type*) (n : ℕ) where
  | null
  | leaf (a : α)
  | node (payload : π) (slots : Fin n → SlotTree π α n)

structure SlotFrame (π α : Type*) (n : ℕ) where
  payload : π
  slots : Fin n → SlotTree π α n
  offset : Fin n

namespace SlotTree

variable {π α : Type*} {n : ℕ}

def isNull : SlotTree π α n → Bool
  | null => true
  | _ => false

/-- The slots that are in use. -/
def slotCount (slots : Fin n → SlotTree π α n) : ℕ :=
  (Finset.univ.filter fun i => (slots i).isNull = false).card

@[simp] lemma isNull_null : (null : SlotTree π α n).isNull = true := rfl

@[simp] lemma isNull_leaf (a : α) : (leaf a : SlotTree π α n).isNull = false := rfl

@[simp] lemma isNull_node (p : π) (s : Fin n → SlotTree π α n) : (node p s).isNull = false := rfl

variable {t : SlotTree π α n} {slots : Fin n → SlotTree π α n}

lemma eq_null_of_isNull (h : t.isNull = true) : t = null := by
  cases t <;> simp_all [isNull]

lemma slotCount_update_add (slots : Fin n → SlotTree π α n) (o : Fin n)
    (hs : (slots o).isNull = true) (ht : t.isNull = false) :
    slotCount (update slots o t) = slotCount slots + 1 := by
  unfold slotCount
  have hne : o ∉ Finset.univ.filter fun i => (slots i).isNull = false := by simp [hs]
  rw [← Finset.card_insert_of_notMem hne]
  congr 1
  ext i
  by_cases hi : i = o
  · subst hi
    simp [ht]
  · simp [hi]

lemma slotCount_update_sub (slots : Fin n → SlotTree π α n) (o : Fin n)
    (hs : (slots o).isNull = false) :
    slotCount (update slots o null) + 1 = slotCount slots := by
  have h := slotCount_update_add (update slots o null) o (by simp) hs
  rw [update_idem, update_eq_self] at h
  exact h.symm

lemma slotCount_update_eq (slots : Fin n → SlotTree π α n) (o : Fin n)
    (h : t.isNull = (slots o).isNull) :
    slotCount (update slots o t) = slotCount slots := by
  unfold slotCount
  congr 1
  ext i
  by_cases hi : i = o
  · subst hi
    simp [h]
  · simp [hi]

lemma slotCount_eq_zero (h : slotCount slots = 0) (i : Fin n) :
    slots i = null := by
  have hm := Finset.filter_eq_empty_iff.1 (Finset.card_eq_zero.1 h) (Finset.mem_univ i)
  exact eq_null_of_isNull (by simpa using hm)

@[simp] lemma slotCount_null : slotCount (fun _ : Fin n => (null : SlotTree π α n)) = 0 := by
  simp [slotCount]

lemma slotCount_eq_one (h : slotCount slots = 1) {o i : Fin n}
    (ho : (slots o).isNull = false) (hi : i ≠ o) : slots i = null := by
  have hs := slotCount_update_sub slots o ho
  have := slotCount_eq_zero (show slotCount (update slots o null) = 0 by omega) i
  rwa [update_of_ne hi] at this

end SlotTree

open SlotTree

variable {π α : Type*} {n : ℕ}

def SlotFrame.plug (f : SlotFrame π α n) (t : SlotTree π α n) : SlotTree π α n :=
  .node f.payload (Function.update f.slots f.offset t)

def plugAll : List (SlotFrame π α n) → SlotTree π α n → SlotTree π α n
  | [], t => t
  | f :: path, t => plugAll path (f.plug t)

lemma SlotFrame.plug_self (p : π) (slots : Fin n → SlotTree π α n) (o : Fin n) :
    (SlotFrame.mk p slots o).plug (slots o) = .node p slots := by
  unfold plug
  rw [update_eq_self]

section

variable (b : ℕ)

variable {slots : Fin (2 ^ b) → SlotTree π α (2 ^ b)} {p p' : π} {c : SlotTree π α (2 ^ b)}

def digit (l i : ℕ) : Fin (2 ^ b) := ⟨i / 2 ^ (b * l) % 2 ^ b, Nat.mod_lt _ (by positivity)⟩

lemma digit_val (l i : ℕ) : (digit b l i).val = i / 2 ^ (b * l) % 2 ^ b := rfl

variable {b}

variable {h i j : ℕ} {o : Fin (2 ^ b)} {x : Bool}

lemma mod_pow_succ_eq_iff :
    i % 2 ^ (b * (h + 1)) = j % 2 ^ (b * (h + 1))
      ↔ digit b h i = digit b h j ∧ i % 2 ^ (b * h) = j % 2 ^ (b * h) := by
  have hsplit : ∀ k, k % 2 ^ (b * (h + 1))
      = k % 2 ^ (b * h) + 2 ^ (b * h) * (k / 2 ^ (b * h) % 2 ^ b) := fun k => by
    rw [Nat.mul_succ, pow_add, Nat.mod_mul]
  have hpos : 0 < 2 ^ (b * h) := by positivity
  rw [hsplit, hsplit, Fin.ext_iff, digit_val, digit_val]
  constructor
  · intro he
    have h1 := congrArg (· % 2 ^ (b * h)) he
    simp only [Nat.add_mul_mod_self_left, Nat.mod_mod] at h1
    rw [h1] at he
    exact ⟨Nat.eq_of_mul_eq_mul_left hpos (Nat.add_left_cancel he), h1⟩
  · rintro ⟨h1, h2⟩
    rw [h1, h2]

lemma exists_digit (h : ℕ) (o : Fin (2 ^ b)) (hi : i < 2 ^ (b * h)) :
    ∃ j < 2 ^ (b * (h + 1)), digit b h j = o ∧ j % 2 ^ (b * h) = i % 2 ^ (b * h) := by
  refine ⟨i + 2 ^ (b * h) * o.val, ?_, ?_, Nat.add_mul_mod_self_left _ _ _⟩
  · have := o.isLt
    calc i + 2 ^ (b * h) * o.val < 2 ^ (b * h) * (o.val + 1) := by rw [Nat.mul_succ]; omega
      _ ≤ 2 ^ (b * h) * 2 ^ b := Nat.mul_le_mul_left _ (by omega)
      _ = 2 ^ (b * (h + 1)) := by rw [← pow_add, Nat.mul_succ]
  · rw [Fin.ext_iff, digit_val, Nat.add_mul_div_left _ _ (by positivity), Nat.div_eq_of_lt hi,
      zero_add, Nat.mod_eq_of_lt o.isLt]

lemma digit_eq_zero_iff (hj : j < 2 ^ (b * (h + 1))) :
    digit b h j = 0 ↔ j < 2 ^ (b * h) := by
  have hpos : 0 < 2 ^ (b * h) := by positivity
  have hlt : j / 2 ^ (b * h) < 2 ^ b := by
    rw [Nat.div_lt_iff_lt_mul hpos, ← pow_add]
    rwa [Nat.mul_succ, add_comm] at hj
  rw [Fin.ext_iff, Fin.val_zero, digit_val, Nat.mod_eq_of_lt hlt, Nat.div_eq_zero_iff_lt hpos]

/-- The slot that the digits of `i` name in a tree of height `h`. -/
def slotAt : ℕ → SlotTree π α (2 ^ b) → ℕ → SlotTree π α (2 ^ b)
  | 0, t, _ => t
  | h + 1, .node _ slots, i => slotAt h (slots (digit b h i)) i
  | _ + 1, _, _ => .null

@[simp] lemma slotAt_zero (t : SlotTree π α (2 ^ b)) (i : ℕ) : slotAt 0 t i = t := rfl

@[simp] lemma slotAt_null (h i : ℕ) : slotAt h (.null : SlotTree π α (2 ^ b)) i = .null := by
  cases h <;> rfl

@[simp] lemma slotAt_node (h : ℕ) (p : π) (slots : Fin (2 ^ b) → SlotTree π α (2 ^ b)) (i : ℕ) :
    slotAt (h + 1) (.node p slots) i = slotAt h (slots (digit b h i)) i := rfl

lemma isNull_of_slotAt {t : SlotTree π α (2 ^ b)} (ht : (slotAt h t i).isNull = false) :
    t.isNull = false := by
  cases t with
  | null => simp at ht
  | leaf a => rfl
  | node p slots => rfl

lemma slotAt_update (h : ℕ) (p : π) (slots : Fin (2 ^ b) → SlotTree π α (2 ^ b))
    (o : Fin (2 ^ b)) (c : SlotTree π α (2 ^ b)) (j : ℕ) :
    slotAt (h + 1) (.node p (update slots o c)) j
      = if digit b h j = o then slotAt h c j else slotAt h (slots (digit b h j)) j := by
  rw [slotAt_node]
  split_ifs with ho
  · rw [ho, update_self]
  · rw [update_of_ne ho]

lemma slotAt_replace
    {c x : SlotTree π α (2 ^ b)}
    (hc : ∀ j, slotAt h c j
      = if j % 2 ^ (b * h) = i % 2 ^ (b * h) then x else slotAt h (slots (digit b h i)) j) (j : ℕ) :
    slotAt (h + 1) (.node p' (update slots (digit b h i) c)) j
      = if j % 2 ^ (b * (h + 1)) = i % 2 ^ (b * (h + 1)) then x
        else slotAt (h + 1) (.node p slots) j := by
  rw [slotAt_update, hc, slotAt_node]
  simp only [mod_pow_succ_eq_iff]
  by_cases hd : digit b h j = digit b h i
  · simp only [hd, true_and, if_true]
  · simp only [hd, false_and, if_false]

lemma slotAt_congr
    (hc : ∀ j, slotAt h c j = slotAt h (slots o) j) (j : ℕ) :
    slotAt (h + 1) (.node p' (update slots o c)) j = slotAt (h + 1) (.node p slots) j := by
  rw [slotAt_update, hc, slotAt_node]
  split_ifs with ho
  · rw [ho]
  · rfl

lemma slotAt_of_slots_null {p : π}
    (hs : ∀ i, slots i = .null) (j : ℕ) : slotAt (h + 1) (.node p slots) j = .null := by
  rw [slotAt_node, hs, slotAt_null]

/-- What `f` reads, at the last digit of `i`, in the bottom node that `i` names. -/
def bitAt (f : π → Fin (2 ^ b) → Bool) : ℕ → SlotTree π α (2 ^ b) → ℕ → Bool
  | 1, .node p _, i => f p (digit b 0 i)
  | h + 2, .node _ slots, i => bitAt f (h + 1) (slots (digit b (h + 1) i)) i
  | _, _, _ => false

variable {f : π → Fin (2 ^ b) → Bool}

@[simp] lemma bitAt_null (h i : ℕ) : bitAt f h (.null : SlotTree π α (2 ^ b)) i = false := by
  rcases h with _ | _ | h <;> rfl

@[simp] lemma bitAt_one (p : π) (slots : Fin (2 ^ b) → SlotTree π α (2 ^ b)) (i : ℕ) :
    bitAt f 1 (.node p slots) i = f p (digit b 0 i) := rfl

@[simp] lemma bitAt_succ (h : ℕ) (p : π) (slots : Fin (2 ^ b) → SlotTree π α (2 ^ b)) (i : ℕ) :
    bitAt f (h + 2) (.node p slots) i = bitAt f (h + 1) (slots (digit b (h + 1) i)) i := rfl

lemma bitAt_of_slots_null {p : π}
    (hs : ∀ i, slots i = .null) (hp : ∀ i, f p i = false) (j : ℕ) :
    bitAt f (h + 1) (.node p slots) j = false := by
  cases h with
  | zero => exact hp _
  | succ h => rw [bitAt_succ, hs, bitAt_null]

lemma bitAt_mod : ∀ {h : ℕ} (t : SlotTree π α (2 ^ b)),
    i % 2 ^ (b * h) = j % 2 ^ (b * h) → bitAt f h t i = bitAt f h t j
  | 0, .null, _ | 0, .leaf _, _ | 0, .node _ _, _ => rfl
  | 1, .null, _ | 1, .leaf _, _ => rfl
  | 1, .node p slots, he => by rw [bitAt_one, bitAt_one, (mod_pow_succ_eq_iff.1 he).1]
  | h + 2, .null, _ | h + 2, .leaf _, _ => rfl
  | h + 2, .node p slots, he => by
    obtain ⟨h1, h2⟩ := mod_pow_succ_eq_iff.1 he
    rw [bitAt_succ, bitAt_succ, h1]
    exact bitAt_mod _ h2

lemma bitAt_one_replace {slots slots' : Fin (2 ^ b) → SlotTree π α (2 ^ b)}
    (hp : ∀ n, f p' n = if n = digit b 0 i then x else f p n) (j : ℕ) :
    bitAt f 1 (.node p' slots' : SlotTree π α (2 ^ b)) j
      = if j % 2 ^ (b * 1) = i % 2 ^ (b * 1) then x else bitAt f 1 (.node p slots) j := by
  rw [bitAt_one, hp, bitAt_one]
  refine if_congr ?_ rfl rfl
  rw [mod_pow_succ_eq_iff, mul_zero, pow_zero, Nat.mod_one, Nat.mod_one]
  exact (and_iff_left rfl).symm

lemma bitAt_succ_replace
    (hc : ∀ j, bitAt f (h + 1) c j = if j % 2 ^ (b * (h + 1)) = i % 2 ^ (b * (h + 1)) then x
      else bitAt f (h + 1) (slots (digit b (h + 1) i)) j) (j : ℕ) :
    bitAt f (h + 2) (.node p' (update slots (digit b (h + 1) i) c)) j
      = if j % 2 ^ (b * (h + 2)) = i % 2 ^ (b * (h + 2)) then x
        else bitAt f (h + 2) (.node p slots) j := by
  rw [bitAt_succ, bitAt_succ]
  simp only [mod_pow_succ_eq_iff (h := h + 1)]
  by_cases hd : digit b (h + 1) j = digit b (h + 1) i
  · simp only [hd, update_self, hc, true_and]
  · simp only [hd, false_and, if_false, update_of_ne hd]

lemma bitAt_succ_congr
    (hc : ∀ j, bitAt f (h + 1) c j = bitAt f (h + 1) (slots o) j) (j : ℕ) :
    bitAt f (h + 2) (.node p' (update slots o c)) j
      = bitAt f (h + 2) (.node p slots) j := by
  rw [bitAt_succ, bitAt_succ]
  by_cases hd : digit b (h + 1) j = o
  · rw [hd, update_self, hc]
  · rw [update_of_ne hd]

end

section

variable {b : ℕ} {f : π → Fin (2 ^ b) → Bool}

/-- The offsets of a path are the digits of `k`, the last digit first. -/
def OnPath : ℕ → List (SlotFrame π α (2 ^ b)) → Prop
  | _, [] => True
  | k, fr :: path => fr.offset.val = k % 2 ^ b ∧ OnPath (k / 2 ^ b) path

lemma div_pow_succ (h j : ℕ) : j / 2 ^ (b * h) / 2 ^ b = j / 2 ^ (b * (h + 1)) := by
  rw [Nat.div_div_eq_div_mul, ← pow_add, Nat.mul_succ]

variable {h i j : ℕ} {fr : SlotFrame π α (2 ^ b)} {t : SlotTree π α (2 ^ b)}

lemma digit_eq_offset {o : Fin (2 ^ b)} (ho : o.val = j / 2 ^ (b * h) % 2 ^ b) :
    digit b h j = o := Fin.ext ho.symm

lemma plug_bitAt
    (ho : fr.offset.val = j / 2 ^ (b * (h + 1)) % 2 ^ b) :
    bitAt f (h + 2) (fr.plug t) j = bitAt f (h + 1) t j := by
  rw [SlotFrame.plug, bitAt_succ, digit_eq_offset ho, update_self]

lemma plug_slotAt
    (ho : fr.offset.val = j / 2 ^ (b * h) % 2 ^ b) :
    slotAt (h + 1) (fr.plug t) j = slotAt h t j := by
  rw [SlotFrame.plug, slotAt_node, digit_eq_offset ho, update_self]

lemma plugAll_bitAt : ∀ {path : List (SlotFrame π α (2 ^ b))} {h : ℕ}
    {t : SlotTree π α (2 ^ b)}, OnPath (j / 2 ^ (b * (h + 1))) path →
    bitAt f (h + 1 + path.length) (plugAll path t) j = bitAt f (h + 1) t j
  | [], _, _, _ => rfl
  | fr :: path, h, t, hp => by
    have hrest := hp.2
    rw [div_pow_succ] at hrest
    rw [plugAll, List.length_cons, show h + 1 + (path.length + 1) = h + 1 + 1 + path.length by omega,
      plugAll_bitAt hrest, plug_bitAt hp.1]

lemma plugAll_slotAt : ∀ {path : List (SlotFrame π α (2 ^ b))} {h : ℕ}
    {t : SlotTree π α (2 ^ b)}, OnPath (j / 2 ^ (b * h)) path →
    slotAt (h + path.length) (plugAll path t) j = slotAt h t j
  | [], _, _, _ => rfl
  | fr :: path, h, t, hp => by
    have hrest := hp.2
    rw [div_pow_succ] at hrest
    rw [plugAll, List.length_cons, show h + (path.length + 1) = h + 1 + path.length by omega,
      plugAll_slotAt hrest, plug_slotAt hp.1]

lemma plugAll_bitAt_replace {x : Bool} : ∀ {path : List (SlotFrame π α (2 ^ b))} {h : ℕ}
    {t t' : SlotTree π α (2 ^ b)}, OnPath (i / 2 ^ (b * (h + 1))) path →
    (∀ j, bitAt f (h + 1) t' j = if j % 2 ^ (b * (h + 1)) = i % 2 ^ (b * (h + 1)) then x
      else bitAt f (h + 1) t j) → ∀ j, bitAt f (h + 1 + path.length) (plugAll path t') j
      = if j % 2 ^ (b * (h + 1 + path.length)) = i % 2 ^ (b * (h + 1 + path.length)) then x
        else bitAt f (h + 1 + path.length) (plugAll path t) j
  | [], _, _, _, _, ht => ht
  | fr :: path, h, t, t', hp, ht => by
    have hrest := hp.2
    rw [div_pow_succ] at hrest
    rw [List.length_cons, show h + 1 + (path.length + 1) = h + 1 + 1 + path.length by omega]
    refine plugAll_bitAt_replace hrest fun j => ?_
    have hoff := digit_eq_offset hp.1
    rw [SlotFrame.plug, SlotFrame.plug, bitAt_succ, bitAt_succ, ← hoff]
    simp only [mod_pow_succ_eq_iff (h := h + 1)]
    by_cases hd : digit b (h + 1) j = digit b (h + 1) i
    · simp only [hd, update_self, ht, true_and]
    · simp only [update_of_ne hd, hd, false_and, if_false]

lemma plugAll_slotAt_replace {x : SlotTree π α (2 ^ b)} :
    ∀ {path : List (SlotFrame π α (2 ^ b))} {h : ℕ} {t t' : SlotTree π α (2 ^ b)},
    OnPath (i / 2 ^ (b * h)) path →
    (∀ j, slotAt h t' j = if j % 2 ^ (b * h) = i % 2 ^ (b * h) then x else slotAt h t j) → ∀ j,
    slotAt (h + path.length) (plugAll path t') j
      = if j % 2 ^ (b * (h + path.length)) = i % 2 ^ (b * (h + path.length)) then x
        else slotAt (h + path.length) (plugAll path t) j
  | [], _, _, _, _, ht => ht
  | fr :: path, h, t, t', hp, ht => by
    have hrest := hp.2
    rw [div_pow_succ] at hrest
    rw [List.length_cons, show h + (path.length + 1) = h + 1 + path.length by omega]
    refine plugAll_slotAt_replace hrest fun j => ?_
    have hoff := digit_eq_offset hp.1
    rw [SlotFrame.plug, slotAt_update, ht, SlotFrame.plug, slotAt_update, ← hoff]
    simp only [mod_pow_succ_eq_iff]
    by_cases hd : digit b h j = digit b h i
    · simp only [hd, true_and, if_true]
    · simp only [hd, false_and, if_false]

lemma plugAll_bitAt_congr : ∀ {path : List (SlotFrame π α (2 ^ b))} {h : ℕ}
    {t t' : SlotTree π α (2 ^ b)}, (∀ j, bitAt f (h + 1) t' j = bitAt f (h + 1) t j) → ∀ j,
    bitAt f (h + 1 + path.length) (plugAll path t') j
      = bitAt f (h + 1 + path.length) (plugAll path t) j
  | [], _, _, _, ht => ht
  | fr :: path, h, t, t', ht => by
    rw [List.length_cons, show h + 1 + (path.length + 1) = h + 1 + 1 + path.length by omega]
    refine plugAll_bitAt_congr fun j => ?_
    rw [SlotFrame.plug, SlotFrame.plug, bitAt_succ, bitAt_succ]
    by_cases hd : digit b (h + 1) j = fr.offset
    · rw [hd, update_self, update_self, ht]
    · rw [update_of_ne hd, update_of_ne hd]

lemma plugAll_slotAt_congr : ∀ {path : List (SlotFrame π α (2 ^ b))} {h : ℕ}
    {t t' : SlotTree π α (2 ^ b)}, (∀ j, slotAt h t' j = slotAt h t j) → ∀ j,
    slotAt (h + path.length) (plugAll path t') j = slotAt (h + path.length) (plugAll path t) j
  | [], _, _, _, ht => ht
  | fr :: path, h, t, t', ht => by
    rw [List.length_cons, show h + (path.length + 1) = h + 1 + path.length by omega]
    refine plugAll_slotAt_congr fun j => ?_
    rw [SlotFrame.plug, slotAt_update, ht, SlotFrame.plug, slotAt_update]

end

end LinuxKernel
