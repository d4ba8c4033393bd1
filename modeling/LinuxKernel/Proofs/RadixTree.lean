import LinuxKernel.RadixTree

/-!
# The radix tree is a map from indices to tagged items

`SlotOk h` is what a slot at height `h` points to between calls. Each loop over `path[]` is first
read as a recursion over the height; the recursion is what is shown to keep `SlotOk` and to change
one index.
-/

namespace LinuxKernel.Lib

open SlotTree Function Nat Option

variable {α : Type*} {shift h index : ℕ} {rnode : RadixSlot shift α} {tag : Fin 2}
  {slots : Fin (2 ^ shift) → RadixSlot shift α} {root : RadixTreeRoot shift α}
  {info info' : RadixNodeInfo shift}
  {slab : List (RadixTreeNode shift α)} {L : LongSize} {t : RadixTree shift α} {x : Bool}

def slotTagged (tag : Fin 2) : RadixSlot shift α → Bool
  | .node info _ => anyTagSet info tag
  | _ => false

structure NodeOk (h : ℕ) (info : RadixNodeInfo shift) (slots : Fin (2 ^ shift) → RadixSlot shift α) :
    Prop where
  height : info.height = h + 1
  count : info.count = slotCount slots
  used : 0 < slotCount slots
  tags : ∀ tag i, info.tags tag i = true → (slots i).isNull = false
  above : 0 < h → ∀ tag i, info.tags tag i = slotTagged tag (slots i)

def SlotOk : ℕ → RadixSlot shift α → Prop
  | 0, .node _ _ => False
  | 0, _ => True
  | _ + 1, .null => True
  | _ + 1, .leaf _ => False
  | h + 1, .node info slots => NodeOk h info slots ∧ ∀ i, SlotOk h (slots i)

lemma SlotOk.null (h : ℕ) : SlotOk h (.null : RadixSlot shift α) := by
  cases h <;> trivial

lemma SlotOk.succ_cases {t : RadixSlot shift α} (ht : SlotOk (h + 1) t) :
    t = .null ∨ ∃ info slots, t = .node info slots ∧ NodeOk h info slots ∧ ∀ i, SlotOk h (slots i) := by
  cases t with
  | null => exact .inl rfl
  | leaf a => exact ht.elim
  | node info slots => exact .inr ⟨info, slots, rfl, ht⟩

lemma anyTagSet_eq_false :
    anyTagSet info tag = false ↔ ∀ i, info.tags tag i = false := by simp [anyTagSet]

lemma anyTagSet_congr
    (h : ∀ i, info'.tags tag i = info.tags tag i) : anyTagSet info' tag = anyTagSet info tag := by
  unfold anyTagSet
  simp only [h]

/-- A node's tags at the offset `i`, at height `h`, agree with the slot there. -/
def TagsOk (h : ℕ) (info : RadixNodeInfo shift) (i : Fin (2 ^ shift)) (t : RadixSlot shift α) : Prop :=
  ∀ tag, (info.tags tag i = true → t.isNull = false) ∧ (0 < h → info.tags tag i = slotTagged tag t)

lemma NodeOk.tagsOk (hn : NodeOk h info slots) {i : Fin (2 ^ shift)}
    (htag : ∀ tag, info'.tags tag i = info.tags tag i) : TagsOk h info' i (slots i) := by
  intro tag
  rw [htag]
  exact ⟨hn.tags tag i, fun h0 => hn.above h0 tag i⟩

lemma SlotOk.replace {o : Fin (2 ^ shift)} {c : RadixSlot shift α}
    (height : info.height = h + 1) (count : info.count = slotCount (update slots o c))
    (used : 0 < info.count) (hk : ∀ i, SlotOk h (slots i)) (hc : SlotOk h c)
    (rest : ∀ i, i ≠ o → TagsOk h info i (slots i)) (ho : TagsOk h info o c) :
    SlotOk (h + 1) (.node info (update slots o c)) := by
  have htags : ∀ i, TagsOk h info i (update slots o c i) := by
    intro i
    by_cases hi : i = o
    · subst hi
      rwa [update_self]
    · rw [update_of_ne hi]
      exact rest i hi
  refine ⟨⟨height, count, count ▸ used, fun tag i => (htags i tag).1, fun h0 tag i => (htags i tag).2 h0⟩,
    fun i => ?_⟩
  by_cases hi : i = o
  · subst hi
    rwa [update_self]
  · rw [update_of_ne hi]
    exact hk i

def tagAt (tag : Fin 2) : ℕ → RadixSlot shift α → ℕ → Bool := bitAt fun info => info.tags tag

lemma tagAt_isNull {i : ℕ} : ∀ {h : ℕ} {t : RadixSlot shift α}, SlotOk h t →
    tagAt tag h t i = true → (slotAt h t i).isNull = false
  | 0, t, _, ht => by
    unfold tagAt bitAt at ht
    simp at ht
  | 1, t, hok, ht => by
    rcases hok.succ_cases with rfl | ⟨info, slots, rfl, hn, -⟩
    · simp [tagAt] at ht
    · exact hn.tags tag _ ht
  | h + 2, t, hok, ht => by
    rcases hok.succ_cases with rfl | ⟨info, slots, rfl, -, hk⟩
    · simp [tagAt] at ht
    · exact tagAt_isNull (h := h + 1) (hk _) ht

lemma slotTagged_iff : ∀ {h : ℕ} {t : RadixSlot shift α}, SlotOk (h + 1) t →
    (slotTagged tag t = true ↔ ∃ i < 2 ^ (shift * (h + 1)), tagAt tag (h + 1) t i = true) := by
  intro h
  induction h with
  | zero =>
    intro t hok
    rcases hok.succ_cases with rfl | ⟨info, slots, rfl, -, -⟩
    · simp [slotTagged, tagAt]
    simp only [slotTagged, anyTagSet, decide_eq_true_eq, tagAt]
    constructor
    · rintro ⟨o, ho⟩
      obtain ⟨i, hi, rfl, -⟩ := exists_digit 0 o (show 0 < 2 ^ (shift * 0) by positivity)
      exact ⟨i, hi, ho⟩
    · rintro ⟨i, -, hi⟩
      exact ⟨_, hi⟩
  | succ h ih =>
    intro t hok
    rcases hok.succ_cases with rfl | ⟨info, slots, rfl, hn, hk⟩
    · simp [slotTagged, tagAt]
    simp only [slotTagged, anyTagSet, decide_eq_true_eq, tagAt, bitAt_succ]
    constructor
    · rintro ⟨o, ho⟩
      rw [hn.above (succ_pos h), ih (hk o)] at ho
      obtain ⟨i, hi, hti⟩ := ho
      obtain ⟨j, hj, rfl, hji⟩ := exists_digit (h + 1) o hi
      exact ⟨j, hj, (bitAt_mod _ hji).trans hti⟩
    · rintro ⟨i, hi, hti⟩
      refine ⟨digit shift (h + 1) i, ?_⟩
      rw [hn.above (succ_pos h), ih (hk _)]
      exact ⟨i % 2 ^ (shift * (h + 1)), mod_lt _ (by positivity),
        (bitAt_mod _ (mod_mod _ _)).trans hti⟩

/-- "must only free zeroed nodes into the slab" -/
structure Zeroed (node : RadixTreeNode shift α) : Prop where
  count : node.info.count = 0
  tags : ∀ tag i, node.info.tags tag i = false
  slots : ∀ i, node.slots i = .null

lemma Zeroed.info_eq {node : RadixTreeNode shift α} (h : Zeroed node) (height : ℕ) :
    { node.info with height := height } = (⟨height, 0, fun _ _ => false⟩ : RadixNodeInfo shift) := by
  have htags : node.info.tags = fun _ _ => false := funext fun tag => funext fun i => h.tags tag i
  simp only [h.count, htags]

lemma Zeroed.slots_eq {node : RadixTreeNode shift α} (h : Zeroed node) :
    node.slots = fun _ => .null := funext h.slots

lemma radixTreeNodeAlloc_zeroed (h : ∀ node ∈ slab, Zeroed node) :
    Zeroed (radixTreeNodeAlloc slab).1 ∧ ∀ node ∈ (radixTreeNodeAlloc slab).2, Zeroed node := by
  cases slab with
  | nil => exact ⟨⟨rfl, fun _ _ => rfl, fun _ => rfl⟩, h⟩
  | cons node slab => exact ⟨h node (by simp), fun n hn => h n (by simp [radixTreeNodeAlloc] at hn; simp [hn])⟩

lemma radixTreeNodeFree_zeroed {toFree : Option (RadixTreeNode shift α)}
    (h : ∀ node ∈ slab, Zeroed node) (hf : ∀ node ∈ toFree, Zeroed (radixTreeNodeRcuFree node)) :
    ∀ node ∈ radixTreeNodeFree toFree slab, Zeroed node := by
  cases toFree with
  | none => exact h
  | some node =>
    intro n hn
    rcases List.mem_cons.1 hn with rfl | hn
    · exact hf node rfl
    · exact h n hn

section

variable (index : ℕ) (item : α)

def insertAt : ℕ → RadixSlot shift α → RadixSlot shift α
  | 0, _ => .leaf item
  | h + 1, .node info slots =>
    let o := digit shift h index
    .node (if (slots o).isNull then { info with count := info.count + 1 } else info)
      (Function.update slots o (insertAt h (slots o)))
  | h + 1, _ =>
    .node ⟨h + 1, 1, fun _ _ => false⟩
      (Function.update (fun _ => .null) (digit shift h index) (insertAt h .null))

lemma insertAt_isNull (h : ℕ) (t : RadixSlot shift α) : (insertAt index item h t).isNull = false := by
  unfold insertAt
  split <;> rfl

lemma slotTagged_insertAt (tag : Fin 2) : ∀ {h : ℕ} {t : RadixSlot shift α}, 0 < h → SlotOk h t →
    slotTagged tag (insertAt index item h t) = slotTagged tag t
  | h + 1, t, _, ht => by
    rcases ht.succ_cases with rfl | ⟨info, slots, rfl, -, -⟩
    · simp [insertAt, slotTagged, anyTagSet]
    · rw [insertAt, slotTagged, slotTagged]
      split_ifs
      · exact anyTagSet_congr fun _ => rfl
      · rfl

lemma SlotOk.insertAt : ∀ {h : ℕ} {t : RadixSlot shift α}, SlotOk h t →
    slotAt h t index = .null → SlotOk h (insertAt index item h t)
  | 0, _, _, _ => trivial
  | h + 1, t, ht, hi => by
    rcases ht.succ_cases with rfl | ⟨info, slots, rfl, hn, hk⟩
    · refine SlotOk.replace rfl ?_ Nat.one_pos (fun _ => SlotOk.null h)
        (SlotOk.insertAt (SlotOk.null h) (slotAt_null h index)) ?_ ?_
      · rw [slotCount_update_add _ _ rfl (insertAt_isNull index item h .null), slotCount_null]
      · exact fun i _ tag => ⟨nofun, fun _ => rfl⟩
      · exact fun tag => ⟨nofun, fun h0 => (slotTagged_insertAt index item tag h0 (SlotOk.null h)).symm⟩
    rw [slotAt_node] at hi
    have hnull := insertAt_isNull index item h (slots (digit shift h index))
    refine SlotOk.replace ?_ ?_ ?_ hk (SlotOk.insertAt (hk _) hi) ?_ ?_
    · split_ifs <;> exact hn.height
    · split_ifs with h0
      · rw [slotCount_update_add _ _ h0 hnull, ← hn.count]
      · rw [slotCount_update_eq _ _ (by simp [hnull, h0]), ← hn.count]
    · have := hn.used
      split_ifs
      · exact succ_pos _
      · rwa [hn.count]
    · exact fun i _ => hn.tagsOk fun tag => by split_ifs <;> rfl
    · refine fun tag => ⟨fun _ => hnull, fun h0 => ?_⟩
      have htag : ∀ x : Bool, (if x then { info with count := info.count + 1 } else info).tags
          = info.tags := fun x => by split_ifs <;> rfl
      rw [htag, hn.above h0]
      exact (slotTagged_insertAt index item tag h0 (hk _)).symm

lemma slotAt_insertAt : ∀ {h : ℕ} {t : RadixSlot shift α}, SlotOk h t → ∀ j,
    slotAt h (insertAt index item h t) j
      = if j % 2 ^ (shift * h) = index % 2 ^ (shift * h) then .leaf item else slotAt h t j
  | 0, t, _, j => by simp [insertAt, mod_one]
  | h + 1, t, ht, j => by
    rcases ht.succ_cases with rfl | ⟨info, slots, rfl, hn, hk⟩
    · rw [insertAt, slotAt_replace (p := ⟨h + 1, 1, fun _ _ => false⟩) (x := .leaf item)]
      · simp
      · intro j
        rw [slotAt_insertAt (SlotOk.null h), slotAt_null]
      · nofun
    · rw [insertAt]
      exact slotAt_replace (fun j => slotAt_insertAt (hk _) j) j

lemma tagAt_insertAt (tag : Fin 2) : ∀ {h : ℕ} {t : RadixSlot shift α}, SlotOk h t → ∀ j,
    tagAt tag h (insertAt index item h t) j = tagAt tag h t j
  | 0, t, _, j => by
    unfold tagAt bitAt
    rfl
  | 1, t, ht, j => by
    rcases ht.succ_cases with rfl | ⟨info, slots, rfl, -, -⟩
    · rfl
    · unfold tagAt
      rw [insertAt, bitAt_one, bitAt_one]
      split_ifs <;> rfl
  | h + 2, t, ht, j => by
    rcases ht.succ_cases with rfl | ⟨info, slots, rfl, -, hk⟩
    · unfold tagAt
      rw [insertAt, bitAt_succ_congr (p := ⟨h + 1, 1, fun _ _ => false⟩), bitAt_succ]
      · rw [bitAt_null, bitAt_null]
      · exact tagAt_insertAt tag (SlotOk.null (h + 1))
      · nofun
    · exact bitAt_succ_congr (tagAt_insertAt tag (hk _)) j

def NoTags (path : RadixPath shift α) : Prop :=
  ∀ f ∈ path.head?, ∀ tag, f.payload.tags tag f.offset = false

lemma insertLoop_null (path : RadixPath shift α) (indirect : Bool)
    (hz : Zeroed (radixTreeNodeAlloc slab).1) :
    insertLoop index (h + 1) ⟨path, .null, indirect, slab⟩ = insertLoop index h
          ⟨⟨⟨h + 1, 0, fun _ _ => false⟩, fun _ => .null, digit shift h index⟩ :: countUp path, .null,
            indirect || path.isEmpty, (radixTreeNodeAlloc slab).2⟩ := by
  have hi := hz.info_eq (h + 1)
  have hs := hz.slots_eq
  simp only [insertLoop, isNull_null, if_true, insertChild]
  rw [hi, hs]

lemma insertLoop_node (path : RadixPath shift α) (info : RadixNodeInfo shift)
    (slots : Fin (2 ^ shift) → RadixSlot shift α) (indirect : Bool)
    (slab : List (RadixTreeNode shift α)) :
    insertLoop index (h + 1) ⟨path, .node info slots, indirect, slab⟩ = insertLoop index h
          ⟨⟨info, slots, digit shift h index⟩ :: path, slots (digit shift h index), indirect, slab⟩ :=
  rfl

/-- The loop of `radix_tree_insert` comes to the slot of the index, and filling that slot is the
recursion. -/
lemma insertLoop_spec : ∀ (h : ℕ) (path : RadixPath shift α) (slot : RadixSlot shift α)
    (indirect : Bool) (slab : List (RadixTreeNode shift α)), SlotOk h slot →
    (∀ node ∈ slab, Zeroed node) → (slot.isNull = true → NoTags path) →
    ∃ path' slab', insertLoop index h ⟨path, slot, indirect, slab⟩
        = some ⟨path', slotAt h slot index,
            indirect || (path.isEmpty && slot.isNull && decide (0 < h)), slab'⟩
      ∧ (∀ node ∈ slab', Zeroed node) ∧ (path' = [] → h = 0 ∧ path = [])
      ∧ ((slotAt h slot index).isNull = false →
          plugAll path' (slotAt h slot index) = plugAll path slot)
      ∧ ((slotAt h slot index).isNull = true → NoTags path' ∧ plugAll (countUp path') (.leaf item)
          = plugAll (if slot.isNull then countUp path else path) (insertAt index item h slot))
  | 0, path, slot, indirect, slab, _, hz, hnt => by
    refine ⟨path, slab, by simp [insertLoop], hz, fun h => ⟨rfl, h⟩, fun _ => rfl,
      fun h0 => ⟨hnt h0, ?_⟩⟩
    rw [slotAt_zero] at h0
    rw [if_pos h0, insertAt]
  | h + 1, path, slot, indirect, slab, hok, hz, hnt => by
    rcases hok.succ_cases with rfl | ⟨info, slots, rfl, hn, hk⟩
    · obtain ⟨hzn, hzs⟩ := radixTreeNodeAlloc_zeroed hz
      obtain ⟨path', slab', he, hz', hpath, -, hnull⟩ := insertLoop_spec h
        (⟨⟨h + 1, 0, fun _ _ => false⟩, fun _ => .null, digit shift h index⟩ :: countUp path) .null
        (indirect || path.isEmpty) _ (SlotOk.null h) hzs (fun _ f hf tag => by cases hf; rfl)
      rw [slotAt_null] at he hnull
      obtain ⟨hnt', hplug⟩ := hnull rfl
      refine ⟨path', slab', ?_, hz', fun h0 => absurd (hpath h0).2 (List.cons_ne_nil _ _), by simp,
        fun _ => ⟨hnt', hplug.trans ?_⟩⟩
      · rw [insertLoop_null index path indirect hzn, he]
        simp
      · rw [isNull_null, if_pos rfl, if_pos rfl, insertAt]
        · rfl
        · nofun
    · obtain ⟨path', slab', he, hz', hpath, hsome, hnull⟩ := insertLoop_spec h
        (⟨info, slots, digit shift h index⟩ :: path) (slots (digit shift h index)) indirect slab
        (hk _) hz (fun h0 f hf tag => by
          cases hf
          by_contra ht
          have := hn.tags tag _ (by simpa using ht)
          simp_all)
      refine ⟨path', slab', ?_, hz', fun h0 => absurd (hpath h0).2 (List.cons_ne_nil _ _),
        fun h0 => ?_, fun h0 => ?_⟩
      · rw [insertLoop_node, he]
        simp
      · rw [slotAt_node, hsome h0, plugAll, SlotFrame.plug_self]
      · obtain ⟨hnt', hplug⟩ := hnull h0
        refine ⟨hnt', hplug.trans ?_⟩
        simp only [isNull_node, Bool.false_eq_true, if_false, insertAt]
        split_ifs <;> rfl

end

/-- The root, also between `radix_tree_extend` and the insertion it is for. -/
structure RootShape (L : LongSize) (root : RadixTreeRoot shift α) : Prop where
  slot : SlotOk root.height root.rnode
  height_le : root.height ≤ radixTreeMaxPath L shift
  untagged : root.rnode.isNull = true → ∀ tag, root.tags tag = false
  indirect : root.indirect = (decide (0 < root.height) && !root.rnode.isNull)
  tags : 0 < root.height → ∀ tag, root.tags tag = slotTagged tag root.rnode

structure RootOk (L : LongSize) (root : RadixTreeRoot shift α) : Prop extends RootShape L root where
  empty : root.rnode.isNull = true → root.height = 0

structure TreeOk (L : LongSize) (t : RadixTree shift α) : Prop where
  root : RootOk L t.root
  slab : ∀ node ∈ t.slab, Zeroed node

lemma rootOk_empty (L : LongSize) :
    RootOk L (⟨0, fun _ => false, .null, false⟩ : RadixTreeRoot shift α) :=
  ⟨⟨trivial, Nat.zero_le _, fun _ _ => rfl, rfl, nofun⟩, fun _ => rfl⟩

def rootSlot (root : RadixTreeRoot shift α) (j : ℕ) : RadixSlot shift α :=
  if j < 2 ^ (shift * root.height) then slotAt root.height root.rnode j else .null

def rootTag (root : RadixTreeRoot shift α) (tag : Fin 2) (j : ℕ) : Bool :=
  if root.height = 0 then decide (j = 0) && root.tags tag
  else decide (j < 2 ^ (shift * root.height)) && tagAt tag root.height root.rnode j

lemma maxindex_lt_iff (hi : index < 2 ^ L.bits) :
    radixTreeMaxindex L shift h < index ↔ 2 ^ (shift * h) ≤ index := by
  unfold radixTreeMaxindex
  simp only [mul_comm h shift]
  split_ifs with h1 h2
  · have : 2 ^ L.bits ≤ 2 ^ (shift * h) := Nat.pow_le_pow_right (by omega) (by omega)
    omega
  · have : shift * h = 0 := by omega
    rw [this, pow_zero]
    exact Iff.rfl
  · obtain ⟨d, hd⟩ : ∃ d, L.bits = d + shift * h := ⟨L.bits - shift * h, by omega⟩
    have hs : ((L.bits : ℤ) - (shift * h : ℕ)).toNat = d := by omega
    have hpos : 0 < 2 ^ d := by positivity
    have hpos' : 0 < 2 ^ (shift * h) := by positivity
    have hdiv : (2 ^ L.bits - 1) / 2 ^ d = 2 ^ (shift * h) - 1 := by
      rw [hd, pow_add, mul_comm, Nat.div_eq_iff hpos, Nat.sub_mul]
      omega
    rw [hs, shiftRight_eq_div_pow, hdiv]
    omega

lemma two_pow_maxPath (L : LongSize) (h0 : 0 < shift) :
    2 ^ L.bits ≤ 2 ^ (shift * radixTreeMaxPath L shift) := by
  refine Nat.pow_le_pow_right (by omega) ?_
  have h := lt_div_mul_add (a := L.bits + shift - 1) h0
  unfold radixTreeMaxPath
  rw [mul_comm]
  omega

lemma lt_maxPath (h0 : 0 < shift) (hi : index < 2 ^ L.bits)
    (hh : h ≤ radixTreeMaxPath L shift) (hlt : 2 ^ (shift * h) ≤ index) :
    h < radixTreeMaxPath L shift := by
  rcases Nat.lt_or_eq_of_le hh with hh | rfl
  · exact hh
  · have := two_pow_maxPath L h0
    omega

lemma extendHeight_spec (h0 : 0 < shift) (hi : index < 2 ^ L.bits) (h : ℕ)
    (hh : h ≤ radixTreeMaxPath L shift) :
    ∃ h', extendHeight L shift index h = some h' ∧ h ≤ h' ∧ h' ≤ radixTreeMaxPath L shift
      ∧ index < 2 ^ (shift * h') := by
  rw [extendHeight, if_pos hh]
  split_ifs with hlt <;> rw [maxindex_lt_iff hi] at hlt
  · have hlt' := lt_maxPath h0 hi hh hlt
    obtain ⟨h', he, h1, h2, h3⟩ := extendHeight_spec h0 hi (h + 1) hlt'
    exact ⟨h', he, by omega, h2, h3⟩
  · exact ⟨h, rfl, le_rfl, hh, by omega⟩
termination_by radixTreeMaxPath L shift - h

lemma extendOnce_eq (hz : Zeroed (radixTreeNodeAlloc t.slab).1) :
    (extendOnce t).root = ⟨t.root.height + 1, t.root.tags,
      .node ⟨t.root.height + 1, 1, fun tag i => t.root.tags tag && decide (i = 0)⟩
        (update (fun _ => .null) 0 t.root.rnode), true⟩ := by
  unfold extendOnce
  simp only [hz.slots_eq]
  congr 3
  funext tag i
  split_ifs with ht
  · by_cases h0 : i = 0
    · simp [h0, ht]
    · simp [h0, ht, hz.tags]
  · simp [hz.tags, ht]

structure SameContent (root root' : RadixTreeRoot shift α) : Prop where
  slots : ∀ j, rootSlot root' j = rootSlot root j
  tags : ∀ tag j, rootTag root' tag j = rootTag root tag j

lemma sameContent_raise (h : ℕ) (tags : Fin 2 → Bool) (rnode : RadixSlot shift α) (ind : Bool) :
    SameContent ⟨h, tags, rnode, ind⟩ ⟨h + 1, tags,
      .node ⟨h + 1, 1, fun tag i => tags tag && decide (i = 0)⟩
        (update (fun _ => .null) 0 rnode), true⟩ := by
  have hle : 2 ^ (shift * h) ≤ 2 ^ (shift * (h + 1)) :=
    Nat.pow_le_pow_right (by omega) (Nat.mul_le_mul_left _ (by omega))
  refine ⟨fun j => ?_, fun tag j => ?_⟩
  · simp only [rootSlot]
    by_cases hj : j < 2 ^ (shift * (h + 1))
    · rw [if_pos hj, slotAt_update, slotAt_null]
      exact if_congr (digit_eq_zero_iff hj) rfl rfl
    · rw [if_neg hj, if_neg (by omega)]
  simp only [rootTag, Nat.add_eq_zero_iff, one_ne_zero, and_false, if_false]
  by_cases hj : j < 2 ^ (shift * (h + 1))
  · rw [decide_eq_true hj, Bool.true_and]
    have hd := digit_eq_zero_iff hj
    rcases h with _ | h
    · rw [mul_zero, pow_zero, lt_one_iff] at hd
      rw [if_pos rfl, tagAt, bitAt_one, Bool.and_comm]
      exact congrArg (tags tag && ·) (decide_eq_decide.2 hd)
    · rw [if_neg (by omega), tagAt, bitAt_succ]
      by_cases h0 : digit shift (h + 1) j = 0
      · rw [h0, update_self, decide_eq_true (hd.1 h0), Bool.true_and]
      · rw [update_of_ne h0, bitAt_null, decide_eq_false (mt hd.2 h0), Bool.false_and]
  · rw [decide_eq_false hj, Bool.false_and]
    split_ifs with h0
    · have : j ≠ 0 := by
        rintro rfl
        exact hj (by positivity)
      rw [decide_eq_false this, Bool.false_and]
    · rw [decide_eq_false (by omega), Bool.false_and]

lemma extendOnce_spec (hs : RootShape L t.root)
    (hz : ∀ node ∈ t.slab, Zeroed node) (hne : t.root.rnode.isNull = false)
    (hlt : t.root.height < radixTreeMaxPath L shift) :
    RootShape L (extendOnce t).root ∧ (∀ node ∈ (extendOnce t).slab, Zeroed node)
      ∧ (extendOnce t).root.rnode.isNull = false ∧ SameContent t.root (extendOnce t).root := by
  obtain ⟨hz1, hz2⟩ := radixTreeNodeAlloc_zeroed hz
  have htag : ∀ tag, anyTagSet (⟨t.root.height + 1, 1,
      fun tag i => t.root.tags tag && decide (i = 0)⟩ : RadixNodeInfo shift) tag = t.root.tags tag := by
    intro tag
    simp [anyTagSet]
  rw [extendOnce_eq hz1]
  refine ⟨⟨?_, hlt, nofun, by simp, fun _ tag => (htag tag).symm⟩, hz2, rfl,
    sameContent_raise _ _ _ _⟩
  · refine SlotOk.replace rfl ?_ Nat.one_pos (fun _ => SlotOk.null _) hs.slot ?_ ?_
    · rw [slotCount_update_add _ _ rfl hne, slotCount_null]
    · intro i hi tag
      simp [hi, slotTagged]
    · refine fun tag => ⟨fun _ => hne, fun h0 => ?_⟩
      simpa using hs.tags h0 tag

lemma extendLoop_spec (height : ℕ) (hle : height ≤ radixTreeMaxPath L shift)
    (t : RadixTree shift α) (hlt : t.root.height < height) (hs : RootShape L t.root)
    (hz : ∀ node ∈ t.slab, Zeroed node) (hne : t.root.rnode.isNull = false) :
    RootShape L (extendLoop height t).root ∧ (∀ node ∈ (extendLoop height t).slab, Zeroed node)
      ∧ (extendLoop height t).root.height = height
      ∧ SameContent t.root (extendLoop height t).root := by
  obtain ⟨hs', hz', hne', hsame⟩ := extendOnce_spec hs hz hne (by omega)
  have hh : (extendOnce t).root.height = t.root.height + 1 := rfl
  rw [extendLoop]
  split_ifs with hmore
  · obtain ⟨h1, h2, h3, h4⟩ := extendLoop_spec height hle _ hmore hs' hz' hne'
    exact ⟨h1, h2, h3, fun j => (h4.slots j).trans (hsame.slots j),
      fun tag j => (h4.tags tag j).trans (hsame.tags tag j)⟩
  · exact ⟨hs', hz', by omega, hsame⟩
termination_by height - t.root.height

lemma radixTreeExtend_spec (h0 : 0 < shift) (ht : TreeOk L t)
    (hi : index < 2 ^ L.bits) (hlt : 2 ^ (shift * t.root.height) ≤ index) :
    ∃ t', radixTreeExtend L t index = some t' ∧ RootShape L t'.root
      ∧ (∀ node ∈ t'.slab, Zeroed node) ∧ index < 2 ^ (shift * t'.root.height)
      ∧ SameContent t.root t'.root := by
  have hh := lt_maxPath h0 hi ht.root.height_le hlt
  obtain ⟨height, he, h1, h2, h3⟩ := extendHeight_spec h0 hi (t.root.height + 1) hh
  unfold radixTreeExtend
  simp only [he]
  split_ifs with hnull
  · have htags := ht.root.untagged hnull
    have hr := eq_null_of_isNull hnull
    refine ⟨_, rfl, ⟨?_, h2, fun _ => htags, ?_, fun _ tag => ?_⟩, ht.slab, h3, fun j => ?_,
      fun tag j => ?_⟩
    · rw [hr]
      exact SlotOk.null _
    · simp only [ht.root.indirect, hnull, Bool.not_true, Bool.and_false]
    · rw [hr]
      exact htags tag
    · simp only [rootSlot, hr, slotAt_null, ite_self]
    · simp only [rootTag, hr, tagAt, bitAt_null, htags, Bool.and_false, ite_self]
  · obtain ⟨hs, hz, hheight, hsame⟩ := extendLoop_spec height h2 t h1 ht.root.toRootShape ht.slab
      (by simpa using hnull)
    exact ⟨_, rfl, hs, hz, by rwa [hheight], hsame⟩

lemma rootSlot_of_null (h : root.rnode.isNull = true) (j : ℕ) :
    rootSlot root j = .null := by rw [rootSlot, eq_null_of_isNull h, slotAt_null, ite_self]

lemma rootSlot_present {j : ℕ} (h : (rootSlot root j).isNull = false) :
    j < 2 ^ (shift * root.height) ∧ rootSlot root j = slotAt root.height root.rnode j := by
  by_cases hj : j < 2 ^ (shift * root.height)
  · exact ⟨hj, if_pos hj⟩
  · rw [rootSlot, if_neg hj] at h
    simp at h

lemma insert_high_enough (item : α) (hs : RootShape L root)
    (hi : index < 2 ^ (shift * root.height)) (hnull : slotAt root.height root.rnode index = .null)
    {root' : RadixTreeRoot shift α}
    (hr : root' = { root with
      rnode := insertAt index item root.height root.rnode, indirect := decide (0 < root.height) }) :
    RootOk L root' ∧ (∀ j, rootSlot root' j = if j = index then .leaf item else rootSlot root j)
      ∧ ∀ tag j, rootTag root' tag j = rootTag root tag j := by
  subst hr
  have hne := insertAt_isNull index item root.height root.rnode
  refine ⟨⟨⟨hs.slot.insertAt index item hnull, hs.height_le, ?_, ?_, fun h0 tag => ?_⟩, ?_⟩,
    fun j => ?_, fun tag j => ?_⟩
  · simp only [hne]
    nofun
  · simp only [hne, Bool.not_false, Bool.and_true]
  · exact (hs.tags h0 tag).trans (slotTagged_insertAt index item tag h0 hs.slot).symm
  · simp only [hne]
    nofun
  · simp only [rootSlot, slotAt_insertAt index item hs.slot]
    by_cases hj : j < 2 ^ (shift * root.height)
    · rw [if_pos hj, if_pos hj, mod_eq_of_lt hj, mod_eq_of_lt hi]
    · rw [if_neg hj, if_neg hj, if_neg (by omega)]
  · simp only [rootTag, tagAt_insertAt index item tag hs.slot]

lemma insertItem_absent (hs : RootShape L root) (item : α)
    {path : RadixPath shift α}
    (hpath : path = [] → root.height = 0) (hnull : slotAt root.height root.rnode index = .null)
    (hnt : NoTags path) (hplug : plugAll (countUp path) (.leaf item)
      = insertAt index item root.height root.rnode) :
    insertItem root ⟨path, .null, root.indirect || (root.rnode.isNull && decide (0 < root.height)), slab⟩
        item = some (0, ⟨⟨root.height, root.tags, insertAt index item root.height root.rnode,
          decide (0 < root.height)⟩, slab⟩) := by
  unfold insertItem
  rw [isNull_null, if_neg (by simp)]
  cases path with
  | nil =>
    have h0 := hpath rfl
    rw [h0, slotAt_zero] at hnull
    have htags := hs.untagged (by rw [hnull]; rfl)
    simp only [hplug, htags, Bool.or_false, Bool.false_eq_true, if_false, h0, lt_irrefl,
      decide_false]
  | cons f path =>
    have htags := hnt f rfl
    simp only [hplug, htags, Bool.or_false, Bool.false_eq_true, if_false, hs.indirect]
    cases root.rnode.isNull <;> simp

lemma radixTreeInsert_spec (h0 : 0 < shift) (ht : TreeOk L t)
    (hi : index < 2 ^ L.bits) (item : α) :
    ∃ t', TreeOk L t' ∧ ((rootSlot t.root index).isNull = false →
          radixTreeInsert L t index item = some (-EEXIST, t') ∧ t'.root = t.root)
      ∧ ((rootSlot t.root index).isNull = true → radixTreeInsert L t index item = some (0, t')
          ∧ (∀ j, rootSlot t'.root j = if j = index then .leaf item else rootSlot t.root j)
          ∧ ∀ tag j, rootTag t'.root tag j = rootTag t.root tag j) := by
  have hext : ∃ t1, (if radixTreeMaxindex L shift t.root.height < index then radixTreeExtend L t index
        else some t) = some t1 ∧ RootShape L t1.root ∧ (∀ node ∈ t1.slab, Zeroed node)
      ∧ index < 2 ^ (shift * t1.root.height) ∧ SameContent t.root t1.root
      ∧ ((rootSlot t.root index).isNull = false → t1 = t) := by
    split_ifs with hlt <;> rw [maxindex_lt_iff hi] at hlt
    · obtain ⟨t1, he, h1, h2, h3, h4⟩ := radixTreeExtend_spec h0 ht hi hlt
      refine ⟨t1, he, h1, h2, h3, h4, fun hp => ?_⟩
      rw [rootSlot, if_neg (by omega)] at hp
      simp at hp
    · exact ⟨t, rfl, ht.root.toRootShape, ht.slab, by omega, ⟨fun _ => rfl, fun _ _ => rfl⟩, fun _ => rfl⟩
  obtain ⟨t1, he1, hs1, hz1, hi1, hsame, heq⟩ := hext
  have hslot : slotAt t1.root.height t1.root.rnode index = rootSlot t.root index := by
    rw [← hsame.slots, rootSlot, if_pos hi1]
  obtain ⟨path, slab, he, hz, hpath, hsome, hnull⟩ := insertLoop_spec index item t1.root.height []
    t1.root.rnode t1.root.indirect t1.slab hs1.slot hz1 (fun _ f hf => by cases hf)
  rw [radixTreeInsert, he1, bind_some, he, bind_some]
  cases hp : (rootSlot t.root index).isNull with
  | false =>
    obtain rfl := heq hp
    rw [← hslot] at hp
    have hne := isNull_of_slotAt hp
    refine ⟨⟨t1.root, slab⟩, ⟨ht.root, hz⟩, fun _ => ⟨?_, rfl⟩, nofun⟩
    unfold insertItem
    rw [if_pos (by simp [hp]), hsome hp]
    simp [plugAll, hne]
  | true =>
    rw [← hslot] at hp
    have hnull0 := eq_null_of_isNull hp
    obtain ⟨hnt, hplug⟩ := hnull hp
    simp only [countUp, ite_self, plugAll] at hplug
    obtain ⟨hok, hslots, htags⟩ := insert_high_enough item hs1 hi1 hnull0 rfl
    refine ⟨⟨_, slab⟩, ⟨hok, hz⟩, Bool.noConfusion, fun _ => ⟨?_, fun j => ?_, fun tag j => ?_⟩⟩
    · rw [hnull0]
      exact insertItem_absent hs1 item (fun h => (hpath h).1) hnull0 hnt hplug
    · rw [hslots, hsame.slots]
    · rw [htags, hsame.tags]

lemma lookupLoop_spec (index : ℕ) : ∀ {h : ℕ} {t : RadixSlot shift α}, SlotOk h t → 0 < h →
    t.isNull = false → lookupLoop index h t = some (slotAt h t index)
  | h + 1, t, ht, _, hne => by
    rcases ht.succ_cases with rfl | ⟨info, slots, rfl, hn, hk⟩
    · simp at hne
    rw [lookupLoop, slotAt_node]
    split_ifs with hnull h0
    · rw [eq_null_of_isNull hnull, slotAt_null]
    · subst h0
      rfl
    · exact lookupLoop_spec index (hk _) (by omega) (by simpa using hnull)

lemma RootOk.indirect_cases (h : RootOk L root) (hne : root.rnode.isNull = false) :
    (root.height = 0 ∧ root.indirect = false) ∨ (0 < root.height ∧ root.indirect = true
        ∧ ∃ info slots, root.rnode = .node info slots ∧ info.height = root.height) := by
  have hi := h.indirect
  rcases Nat.eq_zero_or_pos root.height with h0 | h0
  · exact .inl ⟨h0, by simpa [h0] using hi⟩
  refine .inr ⟨h0, by simpa [h0, hne] using hi, ?_⟩
  have hs := h.slot
  obtain ⟨k, hk⟩ := exists_eq_succ_of_ne_zero h0.ne'
  rw [hk] at hs ⊢
  rcases hs.succ_cases with hr | ⟨info, slots, hr, hn, -⟩
  · rw [hr] at hne
    simp at hne
  · exact ⟨info, slots, hr, hn.height⟩

lemma radixTreeLookup_spec (h : RootOk L root)
    (hi : index < 2 ^ L.bits) : radixTreeLookup L root index = some (rootSlot root index) := by
  unfold radixTreeLookup
  cases hnull : root.rnode.isNull with
  | true => rw [if_pos rfl, rootSlot_of_null hnull]
  | false =>
    rw [if_neg (by simp)]
    unfold rootSlot
    rcases h.indirect_cases hnull with ⟨h0, hind⟩ | ⟨h0, hind, info, slots, hr, hh⟩
    · rw [hind, if_pos (by simp), h0, mul_zero, pow_zero, slotAt_zero]
      by_cases hpos : 0 < index
      · rw [if_pos hpos, if_neg (by omega)]
      · rw [if_neg hpos, if_pos (by omega)]
    · rw [hind, if_neg (by simp)]
      have hl := lookupLoop_spec index h.slot h0 hnull
      simp only [hr, hh, maxindex_lt_iff hi] at hl ⊢
      by_cases hlt : 2 ^ (shift * root.height) ≤ index
      · rw [if_pos hlt, if_neg (by omega)]
      · rw [if_neg hlt, if_pos (by omega), hl]

lemma tagGetLoop_spec (index : ℕ) (tag : Fin 2) : ∀ {h : ℕ} {t : RadixSlot shift α}, SlotOk h t →
    0 < h → tagGetLoop index tag h t = some (tagAt tag h t index)
  | 1, t, ht, _ => by rcases ht.succ_cases with rfl | ⟨info, slots, rfl, -, -⟩ <;> rfl
  | h + 2, t, ht, _ => by
    rcases ht.succ_cases with rfl | ⟨info, slots, rfl, -, hk⟩
    · rfl
    · exact tagGetLoop_spec index tag (h := h + 1) (hk _) (succ_pos h)

lemma RootOk.tags_iff (h : RootOk L root) (tag : Fin 2) :
    root.tags tag = true ↔ ∃ j, rootTag root tag j = true := by
  unfold rootTag
  rcases Nat.eq_zero_or_pos root.height with h0 | h0
  · simp [h0]
  have hs := h.slot
  rw [h.tags h0]
  simp only [h0.ne', if_false, Bool.and_eq_true, decide_eq_true_eq]
  obtain ⟨k, hk⟩ := exists_eq_succ_of_ne_zero h0.ne'
  rw [hk] at hs ⊢
  exact slotTagged_iff hs

lemma RootOk.present_of_tag (h : RootOk L root) {j : ℕ}
    (ht : rootTag root tag j = true) : (rootSlot root j).isNull = false := by
  unfold rootTag at ht
  unfold rootSlot
  split_ifs at ht with h0
  · rw [Bool.and_eq_true, decide_eq_true_eq] at ht
    obtain ⟨rfl, htag⟩ := ht
    rw [if_pos (by positivity), h0, slotAt_zero]
    by_contra hne
    rw [h.untagged (by simpa using hne)] at htag
    simp at htag
  · rw [Bool.and_eq_true, decide_eq_true_eq] at ht
    rw [if_pos ht.1]
    exact tagAt_isNull h.slot ht.2

lemma radixTreeTagGet_spec (h : RootOk L root)
    (hi : index < 2 ^ L.bits) (tag : Fin 2) :
    radixTreeTagGet L root index tag = some (rootTag root tag index) := by
  unfold radixTreeTagGet
  cases htag : root.tags tag with
  | false =>
    have hno : rootTag root tag index = false := by
      by_contra hyes
      have := (h.tags_iff tag).2 ⟨index, by simpa using hyes⟩
      simp [htag] at this
    rw [if_pos (by simp), hno]
  | true =>
    have hnull : root.rnode.isNull = false := by
      by_contra hne
      rw [h.untagged (by simpa using hne)] at htag
      simp at htag
    rw [if_neg (by simp), hnull, if_neg (by simp)]
    unfold rootTag
    rcases h.indirect_cases hnull with ⟨h0, hind⟩ | ⟨h0, hind, info, slots, hr, hh⟩
    · rw [hind, if_pos (by simp), if_pos h0, htag, Bool.and_true]
    rw [hind, if_neg (by simp), if_neg h0.ne']
    have hl := tagGetLoop_spec index tag h.slot h0
    simp only [hr, hh, maxindex_lt_iff hi] at hl ⊢
    by_cases hlt : 2 ^ (shift * root.height) ≤ index
    · rw [if_pos hlt, decide_eq_false (by omega), Bool.false_and]
    · rw [if_neg hlt, decide_eq_true (by omega), Bool.true_and, hl]

structure Retagged (index : ℕ) (tag : Fin 2) (x : Bool) (h : ℕ) (t t' : RadixSlot shift α) : Prop where
  ok : SlotOk h t'
  null : t'.isNull = t.isNull
  slots : ∀ j, slotAt h t' j = slotAt h t j
  tags : 0 < h → ∀ tg j, tagAt tg h t' j
    = if tg = tag ∧ j % 2 ^ (shift * h) = index % 2 ^ (shift * h) then x else tagAt tg h t j
  other : 0 < h → ∀ tg, tg ≠ tag → slotTagged tg t' = slotTagged tg t

lemma Retagged.node {c : RadixSlot shift α}
    (hn : NodeOk h info slots) (hk : ∀ i, SlotOk h (slots i))
    (hc : Retagged index tag x h (slots (digit shift h index)) c)
    (hheight : info'.height = info.height) (hcount : info'.count = info.count)
    (htags : ∀ tg i, tg ≠ tag ∨ i ≠ digit shift h index → info'.tags tg i = info.tags tg i)
    (hleaf : h = 0 → info'.tags tag (digit shift h index) = x)
    (hnull : info'.tags tag (digit shift h index) = true → c.isNull = false)
    (habove : 0 < h → info'.tags tag (digit shift h index) = slotTagged tag c) :
    Retagged index tag x (h + 1) (.node info slots)
      (.node info' (update slots (digit shift h index) c)) where
  ok := by
    refine SlotOk.replace (hheight.trans hn.height) ?_ ?_ hk hc.ok ?_ fun tg => ?_
    · rw [slotCount_update_eq _ _ hc.null, hcount, hn.count]
    · rw [hcount, hn.count]
      exact hn.used
    · exact fun i hi => hn.tagsOk fun tg => htags tg i (.inr hi)
    · by_cases htg : tg = tag
      · subst htg
        exact ⟨hnull, habove⟩
      · rw [htags tg _ (.inl htg), hc.null]
        exact ⟨hn.tags tg _, fun h0 => (hn.above h0 tg _).trans (hc.other h0 tg htg).symm⟩
  null := rfl
  slots := slotAt_congr hc.slots
  tags := by
    intro _ tg j
    by_cases htg : tg = tag
    · subst htg
      simp only [true_and]
      rcases h with _ | h
      · refine bitAt_one_replace (fun n => ?_) j
        split_ifs with hn
        · rw [hn, hleaf rfl]
        · exact htags tg n (.inr hn)
      · exact bitAt_succ_replace (fun j => by simpa [tagAt] using hc.tags (succ_pos h) tg j) j
    · simp only [htg, false_and, if_false]
      rcases h with _ | h
      · exact htags tg _ (.inl htg)
      · exact bitAt_succ_congr (fun j => by simpa [tagAt, htg] using hc.tags (succ_pos h) tg j) j
  other := fun _ tg htg => anyTagSet_congr fun i => htags tg i (.inl htg)

lemma Retagged.leaf {t : RadixSlot shift α} (ht : SlotOk 0 t) :
    Retagged index tag x 0 t t :=
  ⟨ht, rfl, fun _ => rfl, nofun, nofun⟩

lemma tagSet_tags (info : RadixNodeInfo shift) (tag : Fin 2) (o : Fin (2 ^ shift)) (tg : Fin 2)
    (i : Fin (2 ^ shift)) :
    (tagSet info tag o).tags tg i = if tg = tag ∧ i = o then true else info.tags tg i := by
  unfold tagSet
  by_cases htg : tg = tag
  · subst htg
    by_cases hi : i = o <;> simp [hi]
  · simp [htg]

lemma tagClear_tags (info : RadixNodeInfo shift) (tag : Fin 2) (o : Fin (2 ^ shift)) (tg : Fin 2)
    (i : Fin (2 ^ shift)) :
    (tagClear info tag o).tags tg i = if tg = tag ∧ i = o then false else info.tags tg i := by
  unfold tagClear
  by_cases htg : tg = tag
  · subst htg
    by_cases hi : i = o <;> simp [hi]
  · simp [htg]

lemma tagSetLoop_spec (tag : Fin 2) : ∀ {h : ℕ} {t : RadixSlot shift α}, SlotOk h t →
    (slotAt h t index).isNull = false →
    ∃ t', tagSetLoop index tag h t = some (t', slotAt h t index) ∧ Retagged index tag true h t t'
      ∧ (0 < h → slotTagged tag t' = true)
  | 0, t, ht, _ => ⟨t, rfl, .leaf ht, nofun⟩
  | h + 1, t, ht, hp => by
    rcases ht.succ_cases with rfl | ⟨info, slots, rfl, hn, hk⟩
    · simp at hp
    rw [slotAt_node] at hp
    obtain ⟨c, hc, hre, htag⟩ := tagSetLoop_spec tag (hk (digit shift h index)) hp
    have hne := isNull_of_slotAt hp
    set info' := if info.tags tag (digit shift h index) then info
      else tagSet info tag (digit shift h index) with hinfo
    have htags : ∀ tg i, info'.tags tg i
        = if tg = tag ∧ i = digit shift h index then true else info.tags tg i := by
      intro tg i
      rw [hinfo]
      split_ifs with h1 h2 h2
      · rw [h2.1, h2.2, h1]
      · rfl
      · rw [tagSet_tags, if_pos h2]
      · rw [tagSet_tags, if_neg h2]
    have hset : info'.tags tag (digit shift h index) = true := by rw [htags, if_pos ⟨rfl, rfl⟩]
    refine ⟨.node info' (update slots (digit shift h index) c), ?_,
      .node hn hk hre ?_ ?_ (fun tg i hi => ?_) (fun _ => hset) (fun _ => hre.null.trans hne)
        (fun h0 => hset.trans (htag h0).symm), fun _ => ?_⟩
    · rw [tagSetLoop, if_neg (by simp [hne])]
      simp only [hc, slotAt_node, hinfo]
    · rw [hinfo]
      split_ifs <;> rfl
    · rw [hinfo]
      split_ifs <;> rfl
    · rw [htags, if_neg (by tauto)]
    · simp only [slotTagged, anyTagSet, decide_eq_true_eq]
      exact ⟨_, hset⟩

/-- `radix_tree_tag_clear` as a recursion over the height, and whether the node is left with no
offset tagged. -/
def tagClearAt (index : ℕ) (tag : Fin 2) : ℕ → RadixSlot shift α → RadixSlot shift α × Bool
  | h + 1, .node info slots =>
    let o := digit shift h index
    let c := tagClearAt index tag h (slots o)
    if c.2 ∧ info.tags tag o then
      (.node (tagClear info tag o) (Function.update slots o c.1), !anyTagSet (tagClear info tag o) tag)
    else (.node info (Function.update slots o c.1), false)
  | _, t => (t, true)

lemma tagClearAt_spec (tag : Fin 2) : ∀ {h : ℕ} {t : RadixSlot shift α}, SlotOk h t →
    (slotAt h t index).isNull = false → Retagged index tag false h t (tagClearAt index tag h t).1
      ∧ (0 < h → slotTagged tag (tagClearAt index tag h t).1
          = if (tagClearAt index tag h t).2 then false else slotTagged tag t)
  | 0, t, ht, _ => ⟨.leaf ht, nofun⟩
  | h + 1, t, ht, hp => by
    rcases ht.succ_cases with rfl | ⟨info, slots, rfl, hn, hk⟩
    · simp at hp
    rw [slotAt_node] at hp
    obtain ⟨hre, htag⟩ := tagClearAt_spec tag (hk (digit shift h index)) hp
    have hne := hre.null.trans (isNull_of_slotAt hp)
    rw [tagClearAt]
    by_cases hup : (tagClearAt index tag h (slots (digit shift h index))).2 = true
        ∧ info.tags tag (digit shift h index) = true
    · have hclear : (tagClear info tag (digit shift h index)).tags tag (digit shift h index) = false := by
        rw [tagClear_tags, if_pos ⟨rfl, rfl⟩]
      rw [if_pos hup]
      refine ⟨.node hn hk hre rfl rfl (fun tg i hi => ?_) (fun _ => hclear) (fun _ => hne) fun h0 => ?_,
        fun _ => ?_⟩
      · rw [tagClear_tags, if_neg (by tauto)]
      · rw [hclear, htag h0, if_pos hup.1]
      have hold : anyTagSet info tag = true := by
        unfold anyTagSet
        exact decide_eq_true ⟨_, hup.2⟩
      simp only [slotTagged, hold]
      cases anyTagSet (tagClear info tag (digit shift h index)) tag <;> rfl
    · rw [if_neg hup]
      refine ⟨.node hn hk hre rfl rfl (fun _ _ _ => rfl) (fun h0 => ?_) (fun _ => hne) fun h0 => ?_,
        fun _ => rfl⟩
      · subst h0
        simpa [tagClearAt] using hup
      rw [htag h0, hn.above h0]
      rw [hn.above h0] at hup
      split_ifs with hc
      · simpa [hc] using hup
      · rfl

lemma pathDown_spec (index : ℕ) : ∀ {h : ℕ} {t : RadixSlot shift α} (path : RadixPath shift α),
    SlotOk h t → ∃ path', pathDown index h path t = some (path', slotAt h t index)
  | 0, t, path, _ => ⟨path, rfl⟩
  | h + 1, t, path, ht => by
    rcases ht.succ_cases with rfl | ⟨info, slots, rfl, hn, hk⟩
    · exact ⟨path, rfl⟩
    · exact pathDown_spec index (⟨info, slots, digit shift h index⟩ :: path) (hk (digit shift h index))

lemma tagClearLoop_spec (tag : Fin 2) : ∀ {h : ℕ} {t : RadixSlot shift α}
    (path : RadixPath shift α) {path' : RadixPath shift α}, SlotOk h t → (slotAt h t index).isNull = false →
    pathDown index h path t = some (path', slotAt h t index) →
    tagClearLoop tag path' (slotAt h t index)
      = if (tagClearAt index tag h t).2 then tagClearLoop tag path (tagClearAt index tag h t).1
        else (plugAll path (tagClearAt index tag h t).1, false)
  | 0, t, path, path', _, _, he => by
    simp only [pathDown, some.injEq, Prod.mk.injEq] at he
    rw [← he.1, tagClearAt, if_pos rfl, slotAt_zero]
    nofun
  | h + 1, t, path, path', ht, hp, he => by
    rcases ht.succ_cases with rfl | ⟨info, slots, rfl, hn, hk⟩
    · simp at hp
    rw [slotAt_node] at hp he ⊢
    rw [tagClearLoop_spec tag (⟨info, slots, digit shift h index⟩ :: path) (hk _) hp he, tagClearAt]
    cases hc : (tagClearAt index tag h (slots (digit shift h index))).2 with
    | false =>
      simp only [Bool.false_eq_true, false_and, if_false]
      rfl
    | true =>
      rw [if_pos rfl, tagClearLoop]
      cases htag : info.tags tag (digit shift h index) with
      | false =>
        simp only [Bool.false_eq_true, not_false_eq_true, and_false, if_true, if_false]
        rfl
      | true =>
        simp only [not_true_eq_false, and_self, if_true, if_false]
        cases anyTagSet (tagClear info tag (digit shift h index)) tag with
        | false => rfl
        | true => rfl

lemma RootOk.retag (h : RootOk L root) (tags : Fin 2 → Bool)
    (hp : (rootSlot root index).isNull = false)
    (hre : Retagged index tag x root.height root.rnode rnode)
    (hother : ∀ tg, tg ≠ tag → tags tg = root.tags tg)
    (hzero : root.height = 0 → tags tag = x)
    (hpos : 0 < root.height → tags tag = slotTagged tag rnode) :
    RootOk L { root with rnode := rnode, tags := tags }
      ∧ (∀ j, rootSlot { root with rnode := rnode, tags := tags } j = rootSlot root j)
      ∧ ∀ tg j, rootTag { root with rnode := rnode, tags := tags } tg j
          = if tg = tag ∧ j = index then x else rootTag root tg j := by
  obtain ⟨hi, hslot⟩ := rootSlot_present hp
  rw [hslot] at hp
  have hne := isNull_of_slotAt hp
  refine ⟨⟨⟨hre.ok, h.height_le, ?_, ?_, fun h0 tg => ?_⟩, ?_⟩, fun j => ?_, fun tg j => ?_⟩
  · simp only [hre.null, hne]
    nofun
  · simp only [hre.null, h.indirect]
  · by_cases htg : tg = tag
    · rw [htg]
      exact hpos h0
    · simp only [hother tg htg, hre.other h0 tg htg, h.tags h0]
  · simp only [hre.null, hne]
    nofun
  · simp only [rootSlot, hre.slots]
  · simp only [rootTag]
    rcases Nat.eq_zero_or_pos root.height with h0 | h0
    · rw [if_pos h0, if_pos h0]
      rw [h0, mul_zero, pow_zero, lt_one_iff] at hi
      by_cases htg : tg = tag
      · by_cases hj : j = 0
        · simp [htg, hj, hi, hzero h0]
        · simp [hj, hi]
      · simp [htg, hother tg htg]
    · rw [if_neg h0.ne', if_neg h0.ne', hre.tags h0]
      by_cases hj : j < 2 ^ (shift * root.height)
      · rw [decide_eq_true hj, Bool.true_and, Bool.true_and, mod_eq_of_lt hj, mod_eq_of_lt hi]
      · rw [decide_eq_false hj, Bool.false_and, Bool.false_and, if_neg (by omega)]

lemma radixTreeTagSet_spec (h : RootOk L root)
    (hi : index < 2 ^ L.bits) (hp : (rootSlot root index).isNull = false) (tag : Fin 2) :
    ∃ root', radixTreeTagSet L root index tag = some (rootSlot root index, root') ∧ RootOk L root'
      ∧ (∀ j, rootSlot root' j = rootSlot root j)
      ∧ ∀ tg j, rootTag root' tg j = if tg = tag ∧ j = index then true else rootTag root tg j := by
  obtain ⟨hlt, hslot⟩ := rootSlot_present hp
  obtain ⟨rnode, he, hre, htag⟩ := tagSetLoop_spec tag h.slot (hslot ▸ hp)
  have htags : (if ¬ (rootSlot root index).isNull = true ∧ ¬ root.tags tag = true then
      update root.tags tag true else root.tags) = update root.tags tag true := by
    split_ifs with ht
    · rfl
    · have : root.tags tag = true := by simpa [hp] using ht
      rw [← this, update_eq_self]
  have hspec := h.retag (update root.tags tag true) hp hre
    (fun tg htg => update_of_ne htg _ _) (fun _ => update_self _ _ _)
    (fun h0 => by rw [update_self, htag h0])
  refine ⟨_, ?_, hspec⟩
  unfold radixTreeTagSet
  rw [if_neg (by rw [maxindex_lt_iff hi]; omega)]
  simp only [he, ← hslot, htags]

lemma radixTreeTagClear_spec (h : RootOk L root)
    (hi : index < 2 ^ L.bits) (tag : Fin 2) :
    ∃ root', radixTreeTagClear L root index tag = some (rootSlot root index, root') ∧ RootOk L root'
      ∧ root'.height = root.height ∧ (∀ j, rootSlot root' j = rootSlot root j)
      ∧ ∀ tg j, rootTag root' tg j = if tg = tag ∧ j = index then false else rootTag root tg j := by
  cases hp : (rootSlot root index).isNull with
  | true =>
    refine ⟨root, ?_, h, rfl, fun _ => rfl, fun tg j => ?_⟩
    · rw [eq_null_of_isNull hp]
      unfold radixTreeTagClear
      split_ifs with hlt
      · rfl
      rw [maxindex_lt_iff hi, not_le] at hlt
      rw [rootSlot, if_pos hlt] at hp
      obtain ⟨path, he⟩ := pathDown_spec index [] h.slot
      simp only [he]
      rw [eq_null_of_isNull hp]
      rfl
    · split_ifs with hj
      · rw [hj.1, hj.2]
        by_contra ht
        have := h.present_of_tag (by simpa using ht)
        simp [hp] at this
      · rfl
  | false =>
    obtain ⟨hlt, hslot⟩ := rootSlot_present hp
    have hp' := hslot ▸ hp
    obtain ⟨path, he⟩ := pathDown_spec index [] h.slot
    obtain ⟨hre, htag⟩ := tagClearAt_spec tag h.slot hp'
    have hloop := tagClearLoop_spec tag [] h.slot hp' he
    have hspec := h.retag (if (tagClearAt index tag root.height root.rnode).2 then
        update root.tags tag false else root.tags) hp hre
      (fun tg htg => by split_ifs <;> simp [htg])
      (fun h0 => by simp [h0, tagClearAt])
      (fun h0 => by
        rw [htag h0]
        split_ifs
        · simp
        · exact h.tags h0 tag)
    refine ⟨_, ?_, hspec.1, rfl, hspec.2⟩
    unfold radixTreeTagClear
    rw [if_neg (by rw [maxindex_lt_iff hi]; omega)]
    simp only [he, hp', Bool.false_eq_true, if_false, hloop, hslot]
    cases (tagClearAt index tag root.height root.rnode).2 with
    | false => rfl
    | true =>
      simp only [if_true, tagClearLoop, true_and]
      cases ht : root.tags tag with
      | true => rfl
      | false =>
        rw [← ht, update_eq_self]
        simp [ht]

/-- The removal of the item at the index, as a recursion over the height: a node left with no slot
in use goes too. -/
def deleteAt (index : ℕ) : ℕ → RadixSlot shift α → RadixSlot shift α
  | h + 1, .node info slots =>
    let o := digit shift h index
    let c := deleteAt index h (slots o)
    if c.isNull then
      if info.count - 1 = 0 then .null
      else .node { info with count := info.count - 1 } (Function.update slots o .null)
    else .node info (Function.update slots o c)
  | _, _ => .null

structure Deleted (index : ℕ) (h : ℕ) (t t' : RadixSlot shift α) : Prop where
  ok : SlotOk h t'
  slots : ∀ j, slotAt h t' j
    = if j % 2 ^ (shift * h) = index % 2 ^ (shift * h) then .null else slotAt h t j
  tags : 0 < h → ∀ tag j, tagAt tag h t' j = tagAt tag h t j
  tagged : 0 < h → ∀ tag, slotTagged tag t' = slotTagged tag t

lemma NodeOk.untagged
    (hn : NodeOk h info slots) (hd : Deleted index h (slots (digit shift h index)) .null)
    (ht : ∀ tag, tagAt tag (h + 1) (.node info slots) index = false) (tag : Fin 2) :
    info.tags tag (digit shift h index) = false := by
  rcases h with _ | h
  · exact ht tag
  · rw [hn.above (succ_pos h), ← hd.tagged (succ_pos h)]
    rfl

lemma Deleted.cut (hd : Deleted index h (slots (digit shift h index)) .null) (j : ℕ) :
    slotAt (h + 1) (.node { info with count := info.count - 1 }
        (update slots (digit shift h index) .null)) j
      = (if j % 2 ^ (shift * (h + 1)) = index % 2 ^ (shift * (h + 1)) then .null
        else slotAt (h + 1) (.node info slots) j) :=
  slotAt_replace hd.slots j

lemma Deleted.cut_tags
    (hd : Deleted index h (slots (digit shift h index)) .null) (tag : Fin 2) (j : ℕ) :
    tagAt tag (h + 1) (.node { info with count := info.count - 1 }
        (update slots (digit shift h index) .null)) j
      = tagAt tag (h + 1) (.node info slots) j := by
  rcases h with _ | h
  · rfl
  · exact bitAt_succ_congr (hd.tags (succ_pos h) tag) j

lemma NodeOk.alone
    (hn : NodeOk h info slots) {o : Fin (2 ^ shift)} (ho : (slots o).isNull = false)
    (h1 : info.count = 1) (huntag : ∀ tag, info.tags tag o = false) :
    (∀ i, update slots o .null i = .null) ∧ ∀ tag i, info.tags tag i = false := by
  have hcount := slotCount_update_sub slots o ho
  have hnull := slotCount_eq_zero (show slotCount (update slots o .null) = 0 by
    have := hn.count
    omega)
  refine ⟨hnull, fun tag i => ?_⟩
  by_cases hi : i = o
  · rw [hi, huntag]
  by_contra ht
  have h2 := hn.tags tag i (by simpa using ht)
  have h3 := hnull i
  rw [update_of_ne hi] at h3
  rw [h3] at h2
  simp at h2

lemma deleteAt_spec : ∀ {h : ℕ} {t : RadixSlot shift α}, SlotOk h t →
    (slotAt h t index).isNull = false → (0 < h → ∀ tag, tagAt tag h t index = false) →
    Deleted index h t (deleteAt index h t)
  | 0, t, _, _, _ => ⟨trivial, fun j => by simp [deleteAt, mod_one], nofun, nofun⟩
  | h + 1, t, ht, hp, htag => by
    rcases ht.succ_cases with rfl | ⟨info, slots, rfl, hn, hk⟩
    · simp at hp
    have htag' := htag (succ_pos h)
    rw [slotAt_node] at hp
    have hne := isNull_of_slotAt hp
    have hd := deleteAt_spec (hk (digit shift h index)) hp fun h0 tag => by
      obtain ⟨k, rfl⟩ := exists_eq_succ_of_ne_zero h0.ne'
      exact htag' tag
    rw [deleteAt]
    by_cases hc : (deleteAt index h (slots (digit shift h index))).isNull = true
    · rw [if_pos hc]
      rw [eq_null_of_isNull hc] at hd
      have hcount := slotCount_update_sub slots (digit shift h index) hne
      have huntag := hn.untagged hd htag'
      by_cases h1 : info.count - 1 = 0
      · rw [if_pos h1]
        obtain ⟨hnull, htags⟩ := hn.alone hne (by have := hn.used; have := hn.count; omega) huntag
        refine ⟨trivial, fun j => ?_, fun _ tag j => ?_, fun _ tag => ?_⟩
        · rw [← hd.cut j, slotAt_null, slotAt_of_slots_null hnull]
        · rw [← hd.cut_tags tag j, tagAt, bitAt_null, bitAt_of_slots_null hnull (htags tag)]
        · exact (anyTagSet_eq_false.2 (htags tag)).symm
      · rw [if_neg h1]
        refine ⟨SlotOk.replace hn.height ?_ (Nat.pos_of_ne_zero h1) hk (SlotOk.null h)
          (fun i _ => hn.tagsOk fun _ => rfl) (fun tag => ⟨fun ht => ?_, fun _ => huntag tag⟩),
          hd.cut, fun _ => hd.cut_tags, fun _ _ => rfl⟩
        · have := hn.count
          simp only []
          omega
        · simp [huntag] at ht
    · rw [if_neg hc]
      simp only [Bool.not_eq_true] at hc
      refine ⟨SlotOk.replace hn.height ?_ ?_ hk hd.ok (fun i _ => hn.tagsOk fun _ => rfl)
        (fun tag => ⟨fun _ => hc, fun h0 => ?_⟩), slotAt_replace hd.slots, fun _ tag j => ?_,
        fun _ _ => rfl⟩
      · rw [slotCount_update_eq _ _ (hc.trans hne.symm), hn.count]
      · rw [hn.count]
        exact hn.used
      · rw [hd.tagged h0, hn.above h0]
      · rcases h with _ | h
        · rfl
        · exact bitAt_succ_congr (hd.tags (succ_pos h) tag) j

lemma Zeroed.rcuFree {node : RadixTreeNode shift α} (hs : ∀ i, i ≠ 0 → node.slots i = .null)
    (ht : ∀ tag i, i ≠ 0 → node.info.tags tag i = false) : Zeroed (radixTreeNodeRcuFree node) := by
  refine ⟨rfl, fun tag i => ?_, fun i => ?_⟩
  · simp only [radixTreeNodeRcuFree, tagClear_tags]
    by_cases hi : i = 0
    · rcases Fin.exists_fin_two.1 ⟨tag, rfl⟩ with rfl | rfl <;> simp [hi]
    · simp [hi, ht]
  · simp only [radixTreeNodeRcuFree]
    by_cases hi : i = 0
    · rw [hi, update_self]
    · rw [update_of_ne hi, hs i hi]

lemma raised_of_count_one {tags : Fin 2 → Bool} {ind : Bool}
    (hr : RootOk L ⟨h + 1, tags, .node info slots, ind⟩) (h1 : info.count = 1)
    (h0 : (slots 0).isNull = false) :
    info = ⟨h + 1, 1, fun tag i => tags tag && decide (i = 0)⟩
      ∧ slots = update (fun _ => .null) 0 (slots 0) := by
  obtain ⟨hn, hk⟩ := hr.slot
  have hone : slotCount slots = 1 := hn.count ▸ h1
  have hrest : ∀ i, i ≠ 0 → slots i = .null := fun i hi => slotCount_eq_one hone h0 hi
  have htags : ∀ tag i, i ≠ 0 → info.tags tag i = false := by
    intro tag i hi
    by_contra ht
    have := hn.tags tag i (by simpa using ht)
    simp [hrest i hi] at this
  have htop : ∀ tag, tags tag = info.tags tag 0 := by
    intro tag
    have ht := hr.tags (succ_pos h) tag
    simp only [slotTagged] at ht
    rw [ht]
    cases h00 : info.tags tag 0 with
    | true =>
      unfold anyTagSet
      exact decide_eq_true ⟨0, h00⟩
    | false =>
      refine anyTagSet_eq_false.2 fun i => ?_
      by_cases hi : i = 0
      · rw [hi, h00]
      · exact htags tag i hi
  constructor
  · obtain ⟨height, count, itags⟩ := info
    simp only [RadixNodeInfo.mk.injEq]
    refine ⟨hn.height, h1, funext fun tag => funext fun i => ?_⟩
    by_cases hi : i = 0
    · simp [hi, htop]
    · rw [decide_eq_false hi, Bool.and_false]
      exact htags tag i hi
  · funext i
    by_cases hi : i = 0
    · rw [hi, update_self]
    · rw [update_of_ne hi, hrest i hi]

lemma radixTreeShrink_spec : ∀ (h : ℕ) (tags : Fin 2 → Bool) (rnode : RadixSlot shift α)
    (ind : Bool) (slab : List (RadixTreeNode shift α)), TreeOk L ⟨⟨h, tags, rnode, ind⟩, slab⟩ →
    ∃ t', radixTreeShrink ⟨⟨h, tags, rnode, ind⟩, slab⟩ = some t' ∧ TreeOk L t'
      ∧ SameContent ⟨h, tags, rnode, ind⟩ t'.root
  | 0, tags, rnode, ind, slab, ht => by
    refine ⟨_, ?_, ht, fun _ => rfl, fun _ _ => rfl⟩
    rw [radixTreeShrink, if_neg (by simp)]
  | h + 1, tags, rnode, ind, slab, ht => by
    have hsame : ∃ t', some (⟨⟨h + 1, tags, rnode, ind⟩, slab⟩ : RadixTree shift α) = some t' ∧ TreeOk L t'
        ∧ SameContent ⟨h + 1, tags, rnode, ind⟩ t'.root := ⟨_, rfl, ht, fun _ => rfl, fun _ _ => rfl⟩
    have hne : rnode.isNull = false := by
      by_contra hnull
      have := ht.root.empty (by simpa using hnull)
      simp at this
    obtain rfl : ind = true := by simpa [hne] using ht.root.indirect
    rw [radixTreeShrink, if_pos (succ_pos h), if_neg (by simp)]
    rcases ht.root.slot.succ_cases with rfl | ⟨info, slots, rfl, hn, hk⟩
    · simp at hne
    simp only []
    split_ifs with h1 h0
    · exact hsame
    · exact hsame
    rw [not_not] at h1
    simp only [Bool.not_eq_true] at h0
    obtain ⟨hinfo, hslots⟩ := raised_of_count_one ht.root h1 h0
    have hroot : RootOk L ⟨h, tags, slots 0, decide (1 < h + 1)⟩ := by
      refine ⟨⟨hk 0, (le_succ h).trans ht.root.height_le, ?_, ?_, fun hpos tag => ?_⟩, ?_⟩
      · simp [h0]
      · simp [h0]
      · rw [← hn.above hpos tag 0, hinfo]
        simp
      · simp [h0]
    have hzero : Zeroed (radixTreeNodeRcuFree ⟨info, slots⟩) := by
      refine Zeroed.rcuFree (fun i hi => ?_) fun tag i hi => ?_
      · have hnull := congrFun hslots i
        rwa [update_of_ne hi] at hnull
      · simp only [hinfo, decide_eq_false hi, Bool.and_false]
    have hslab : ∀ node ∈ radixTreeNodeFree (some ⟨info, slots⟩) slab, Zeroed node := by
      refine radixTreeNodeFree_zeroed ht.slab fun node hnode => ?_
      cases hnode
      exact hzero
    obtain ⟨t', he, hok, hsame'⟩ :=
      radixTreeShrink_spec h tags (slots 0) (decide (1 < h + 1)) _ ⟨hroot, hslab⟩
    have hraise := sameContent_raise h tags (slots 0) (decide (1 < h + 1))
    rw [← hinfo, ← hslots] at hraise
    exact ⟨t', he, hok, fun j => (hsame'.slots j).trans (hraise.slots j).symm,
      fun tag j => (hsame'.tags tag j).trans (hraise.tags tag j).symm⟩

lemma deleteLoop_spec (root : RadixTreeRoot shift α) : ∀ {h : ℕ} {t : RadixSlot shift α}
    (path : RadixPath shift α) (toFree : Option (RadixTreeNode shift α)) {path' : RadixPath shift α}
    {slab : List (RadixTreeNode shift α)}, SlotOk h t → (slotAt h t index).isNull = false →
    (0 < h → ∀ tag, tagAt tag h t index = false) →
    pathDown index h path t = some (path', slotAt h t index) →
    (∀ node ∈ slab, Zeroed node) → (∀ node ∈ toFree, Zeroed (radixTreeNodeRcuFree node)) →
    ∃ slab', (∀ node ∈ slab', Zeroed node) ∧ (((deleteAt index h t).isNull = true ∧ ∃ toFree',
            (∀ node ∈ toFree', Zeroed (radixTreeNodeRcuFree node))
            ∧ deleteLoop root path' toFree slab = deleteLoop root path toFree' slab')
        ∨ ((deleteAt index h t).isNull = false ∧ (deleteLoop root path' toFree slab
              = some ⟨{ root with rnode := plugAll path (deleteAt index h t) }, slab'⟩
            ∨ deleteLoop root path' toFree slab
              = radixTreeShrink ⟨{ root with rnode := plugAll path (deleteAt index h t) }, slab'⟩)))
  | 0, t, path, toFree, path', slab, _, _, _, he, hz, hf => by
    simp only [pathDown, some.injEq, Prod.mk.injEq] at he
    exact ⟨slab, hz, .inl ⟨rfl, toFree, hf, by rw [he.1]⟩⟩
  | h + 1, t, path, toFree, path', slab, ht, hp, htag, he, hz, hf => by
    rcases ht.succ_cases with rfl | ⟨info, slots, rfl, hn, hk⟩
    · simp at hp
    rw [slotAt_node] at hp he
    have htag' := htag (succ_pos h)
    have hchild : 0 < h → ∀ tag, tagAt tag h (slots (digit shift h index)) index = false := by
      intro h0 tag
      obtain ⟨k, rfl⟩ := exists_eq_succ_of_ne_zero h0.ne'
      exact htag' tag
    have hd := deleteAt_spec (hk (digit shift h index)) hp hchild
    obtain ⟨slab1, hz1, hcase⟩ := deleteLoop_spec root (⟨info, slots, digit shift h index⟩ :: path)
      toFree (hk (digit shift h index)) hp hchild he hz hf
    rw [deleteAt]
    rcases hcase with ⟨hc, toFree1, hf1, hl⟩ | ⟨hc, hl⟩
    · rw [eq_null_of_isNull hc] at hd
      have huntag := hn.untagged hd htag'
      rw [if_pos hc, hl, deleteLoop]
      have hz2 := radixTreeNodeFree_zeroed hz1 hf1
      by_cases h1 : info.count - 1 = 0
      · obtain ⟨hnull, htags⟩ := hn.alone (isNull_of_slotAt hp)
          (by have := hn.used; have := hn.count; omega) huntag
        refine ⟨_, hz2, .inl ⟨by simp [h1], some ⟨{ info with count := info.count - 1 },
          update slots (digit shift h index) .null⟩, fun node hnode => ?_, by simp [h1]⟩⟩
        cases hnode
        exact Zeroed.rcuFree (fun i _ => hnull i) fun tag i _ => htags tag i
      · refine ⟨_, hz2, .inr ⟨by simp [h1], ?_⟩⟩
        simp only [h1, ne_eq, not_false_eq_true, if_true, if_false]
        cases path with
        | nil => exact .inr rfl
        | cons f path => exact .inl rfl
    · rw [if_neg (by simp [hc])]
      exact ⟨slab1, hz1, .inr ⟨rfl, hl⟩⟩

lemma pathDown_head : ∀ {h : ℕ} {t : RadixSlot shift α}
    (path : RadixPath shift α), SlotOk h t → 0 < h →
    (slotAt h t index).isNull = false →
    ∃ f path', pathDown index h path t = some (f :: path', slotAt h t index)
      ∧ ∀ tag, f.payload.tags tag f.offset = tagAt tag h t index
  | 1, t, path, ht, _, hp => by
    rcases ht.succ_cases with rfl | ⟨info, slots, rfl, -, -⟩
    · simp at hp
    · exact ⟨_, path, rfl, fun _ => rfl⟩
  | h + 2, t, path, ht, _, hp => by
    rcases ht.succ_cases with rfl | ⟨info, slots, rfl, -, hk⟩
    · simp at hp
    · exact pathDown_head (h := h + 1) _ (hk _) (succ_pos h) hp

lemma deleteTag_spec (h : RootOk L root)
    (hi : index < 2 ^ L.bits) (h0 : 0 < root.height) (hp : (rootSlot root index).isNull = false)
    (tag : Fin 2) :
    ∃ root', deleteTag L root index tag = some root' ∧ RootOk L root' ∧ root'.height = root.height
      ∧ (∀ j, rootSlot root' j = rootSlot root j)
      ∧ ∀ tg j, rootTag root' tg j = if tg = tag ∧ j = index then false else rootTag root tg j := by
  obtain ⟨hlt, hslot⟩ := rootSlot_present hp
  obtain ⟨f, path, he, htags⟩ := pathDown_head [] h.slot h0 (hslot ▸ hp)
  obtain ⟨root', hclear, hspec⟩ := radixTreeTagClear_spec h hi tag
  unfold deleteTag
  simp only [he, htags, hclear]
  have htag : rootTag root tag index = tagAt tag root.height root.rnode index := by
    rw [rootTag, if_neg h0.ne', decide_eq_true hlt, Bool.true_and]
  cases ht : tagAt tag root.height root.rnode index with
  | true => exact ⟨root', rfl, hspec⟩
  | false =>
    refine ⟨root, rfl, h, rfl, fun _ => rfl, fun tg j => ?_⟩
    split_ifs with hj
    · rw [hj.1, hj.2, htag, ht]
    · rfl

structure Without (index : ℕ) (root root' : RadixTreeRoot shift α) : Prop where
  slots : ∀ j, rootSlot root' j = if j = index then .null else rootSlot root j
  tags : ∀ tag j, rootTag root' tag j = if j = index then false else rootTag root tag j

lemma Without.absent (h : RootOk L root)
    (hnull : (rootSlot root index).isNull = true) : Without index root root := by
  refine ⟨fun j => ?_, fun tag j => ?_⟩
  · split_ifs with hj
    · rw [hj, eq_null_of_isNull hnull]
    · rfl
  split_ifs with hj
  · rw [hj]
    by_contra ht
    have := h.present_of_tag (by simpa using ht)
    simp [hnull] at this
  · rfl

lemma Without.deleted (h0 : 0 < root.height)
    (hi : index < 2 ^ (shift * root.height))
    (hd : Deleted index root.height root.rnode rnode)
    (htag : ∀ tag, rootTag root tag index = false) :
    Without index root { root with rnode := rnode } := by
  refine ⟨fun j => ?_, fun tag j => ?_⟩
  · simp only [rootSlot, hd.slots]
    by_cases hj : j < 2 ^ (shift * root.height)
    · rw [if_pos hj, if_pos hj, mod_eq_of_lt hj, mod_eq_of_lt hi]
    · rw [if_neg hj, if_neg hj, ite_self]
  · have hsame : rootTag { root with rnode := rnode } tag j = rootTag root tag j := by
      simp only [rootTag, if_neg h0.ne', hd.tags h0]
    rw [hsame]
    split_ifs with hj
    · rw [hj, htag]
    · rfl

lemma RootOk.deleted (h : RootOk L root)
    (h0 : 0 < root.height)
    (hd : Deleted index root.height root.rnode rnode) (hne : rnode.isNull = false)
    (hne' : root.rnode.isNull = false) : RootOk L { root with rnode := rnode } := by
  refine ⟨⟨hd.ok, h.height_le, ?_, ?_, fun _ tag => ?_⟩, ?_⟩
  · simp [hne]
  · simpa [hne, hne'] using h.indirect
  · simp only [hd.tagged h0, h.tags h0]
  · simp [hne]

lemma Without.empty (h : Without index root { root with rnode := .null }) (h0 : 0 < root.height) :
    Without index root ⟨0, fun _ => false, .null, false⟩ := by
  refine ⟨fun j => ?_, fun tag j => ?_⟩
  · rw [← h.slots, rootSlot_of_null rfl, rootSlot_of_null rfl]
  · rw [← h.tags]
    simp [rootTag, h0.ne', tagAt]

lemma Without.congr {root1 root2 root3 : RadixTreeRoot shift α} (h : Without index root1 root2)
    (hs : ∀ j, rootSlot root1 j = rootSlot root j)
    (ht : ∀ tag j, j ≠ index → rootTag root1 tag j = rootTag root tag j)
    (hsame : SameContent root2 root3) : Without index root root3 := by
  refine ⟨fun j => ?_, fun tag j => ?_⟩
  · rw [hsame.slots, h.slots, hs]
  · rw [hsame.tags, h.tags]
    split_ifs with hj
    · rfl
    · exact ht tag j hj

lemma radixTreeDelete_spec (ht : TreeOk L t)
    (hi : index < 2 ^ L.bits) :
    ∃ t', radixTreeDelete L t index = some (rootSlot t.root index, t') ∧ TreeOk L t'
      ∧ Without index t.root t'.root := by
  unfold radixTreeDelete
  by_cases hmax : radixTreeMaxindex L shift t.root.height < index
  · rw [if_pos hmax]
    rw [maxindex_lt_iff hi] at hmax
    have hnull : rootSlot t.root index = .null := if_neg (by omega)
    exact ⟨t, by rw [hnull], ht, .absent ht.root (by rw [hnull]; rfl)⟩
  rw [if_neg hmax]
  rw [maxindex_lt_iff hi, not_le] at hmax
  rcases Nat.eq_zero_or_pos t.root.height with h0 | h0
  · rw [if_pos h0]
    rw [h0, mul_zero, pow_zero, lt_one_iff] at hmax
    subst hmax
    refine ⟨⟨⟨0, fun _ => false, .null, false⟩, t.slab⟩, ?_, ⟨rootOk_empty L, ht.slab⟩,
      fun j => ?_, fun tag j => ?_⟩
    · simp [rootSlot, h0]
    · rw [rootSlot_of_null rfl]
      by_cases hj : j = 0
      · rw [if_pos hj]
      · rw [if_neg hj, rootSlot, if_neg (by rw [h0]; simpa using hj)]
    · by_cases hj : j = 0
      · simp [rootTag, hj]
      · simp [rootTag, h0, hj]
  rw [if_neg h0.ne']
  have hslot : rootSlot t.root index = slotAt t.root.height t.root.rnode index := if_pos hmax
  obtain ⟨path, he⟩ := pathDown_spec index [] ht.root.slot
  simp only [he, ← hslot]
  cases hp : (rootSlot t.root index).isNull with
  | true => exact ⟨t, rfl, ht, .absent ht.root hp⟩
  | false =>
    obtain ⟨root1, he1, hok1, hh1, hs1, ht1⟩ := deleteTag_spec ht.root hi h0 hp 0
    obtain ⟨root2, he2, hok2, hh2, hs2, ht2⟩ := deleteTag_spec hok1 hi (by omega) (by rw [hs1, hp]) 1
    have h02 : 0 < root2.height := by omega
    have hslots : ∀ j, rootSlot root2 j = rootSlot t.root j := fun j => (hs2 j).trans (hs1 j)
    have hother : ∀ tag j, j ≠ index → rootTag root2 tag j = rootTag t.root tag j := by
      intro tag j hj
      rw [ht2, if_neg (by tauto), ht1, if_neg (by tauto)]
    have huntag : ∀ tag, rootTag root2 tag index = false := by
      intro tag
      rcases Fin.exists_fin_two.1 ⟨tag, rfl⟩ with rfl | rfl <;> simp [ht2, ht1]
    have hp2 : (rootSlot root2 index).isNull = false := by rw [hslots, hp]
    obtain ⟨hlt2, hslot2⟩ := rootSlot_present hp2
    rw [hslot2] at hp2
    have htag2 : ∀ tag, tagAt tag root2.height root2.rnode index = false := by
      intro tag
      have := huntag tag
      rwa [rootTag, if_neg h02.ne', decide_eq_true hlt2, Bool.true_and] at this
    have hd := deleteAt_spec hok2.slot hp2 fun _ => htag2
    obtain ⟨path2, hpath2⟩ := pathDown_spec index [] hok2.slot
    obtain ⟨slab, hz, hcase⟩ := deleteLoop_spec root2 [] none hok2.slot hp2 (fun _ => htag2)
      hpath2 ht.slab nofun
    have hwithout := Without.deleted h02 hlt2 hd huntag
    simp only [Bool.false_eq_true, if_false, he1, he2, hpath2, bind_some]
    rcases hcase with ⟨hnull, toFree, hf, hl⟩ | ⟨hne, hl⟩
    · rw [eq_null_of_isNull hnull] at hwithout
      rw [hl, deleteLoop, bind_some]
      exact ⟨_, rfl, ⟨rootOk_empty L, radixTreeNodeFree_zeroed hz hf⟩,
        (hwithout.empty h02).congr hslots hother ⟨fun _ => rfl, fun _ _ => rfl⟩⟩
    · have hok := hok2.deleted h02 hd hne (isNull_of_slotAt hp2)
      obtain ⟨t', hl', hok', hsame⟩ : ∃ t', deleteLoop root2 path2 none t.slab = some t' ∧ TreeOk L t'
          ∧ SameContent { root2 with rnode := deleteAt index root2.height root2.rnode } t'.root := by
        rcases hl with hl | hl <;> rw [hl]
        · exact ⟨_, rfl, ⟨hok, hz⟩, fun _ => rfl, fun _ _ => rfl⟩
        · exact radixTreeShrink_spec _ _ _ _ _ ⟨hok, hz⟩
      rw [hl', bind_some]
      exact ⟨t', rfl, hok', hwithout.congr hslots hother hsame⟩

section

variable (L : LongSize) {t' : RadixTree shift α}

/-- What the tree is for: a finite map from indices to items, each with its set of tags. -/
abbrev TaggedMap (α : Type*) := ℕ → Option (α × (Fin 2 → Bool))

inductive RadixCall (α : Type*) where
  | insert (index : ℕ) (item : α)
  | delete (index : ℕ)
  | tagSet (index : ℕ) (tag : Fin 2)
  | tagClear (index : ℕ) (tag : Fin 2)

inductive RadixResult (α : Type*) where
  | code (ret : ℤ)
  | item (ret : Option α)
deriving DecidableEq

def slotItem : RadixSlot shift α → Option (Option α)
  | .null => some none
  | .leaf a => some (some a)
  | .node _ _ => none

/-- A call on the tree; `none` when it hits a `BUG_ON` or a bad pointer, or returns a node. -/
def RadixCall.exec (t : RadixTree shift α) : RadixCall α → Option (RadixResult α × RadixTree shift α)
  | insert index item => (radixTreeInsert L t index item).map fun (ret, t) => (.code ret, t)
  | delete index => (radixTreeDelete L t index).bind fun (slot, t) =>
      (slotItem slot).map fun ret => (.item ret, t)
  | tagSet index tag => (radixTreeTagSet L t.root index tag).bind fun (slot, root) =>
      (slotItem slot).map fun ret => (.item ret, { t with root := root })
  | tagClear index tag => (radixTreeTagClear L t.root index tag).bind fun (slot, root) =>
      (slotItem slot).map fun ret => (.item ret, { t with root := root })

def RadixCall.spec (m : TaggedMap α) : RadixCall α → RadixResult α × TaggedMap α
  | insert index item => match m index with
    | some _ => (.code (-EEXIST), m)
    | none => (.code 0, Function.update m index (some (item, fun _ => false)))
  | delete index => (.item ((m index).map Prod.fst), Function.update m index none)
  | tagSet index tag => (.item ((m index).map Prod.fst), Function.update m index
      ((m index).map fun (item, tags) => (item, Function.update tags tag true)))
  | tagClear index tag => (.item ((m index).map Prod.fst), Function.update m index
      ((m index).map fun (item, tags) => (item, Function.update tags tag false)))

/-- The calls the interface allows: an index is an `unsigned long`, and "setting a tag on a
not-present item is a bug". -/
def RadixCall.Legal (m : TaggedMap α) : RadixCall α → Prop
  | insert index _ => index < 2 ^ L.bits
  | delete index => index < 2 ^ L.bits
  | tagSet index _ => index < 2 ^ L.bits ∧ (m index).isSome
  | tagClear index _ => index < 2 ^ L.bits

/-- Runs of the two side by side, with what the tree's calls and the map's calls returned. -/
def radixRun : List (RadixCall α) → RadixTree shift α → Option (List (RadixResult α) × RadixTree shift α)
  | [], t => some ([], t)
  | c :: cs, t => (c.exec L t).bind fun (r, t) => (radixRun cs t).map fun (rs, t) => (r :: rs, t)

def mapRun : List (RadixCall α) → TaggedMap α → List (RadixResult α) × TaggedMap α
  | [], m => ([], m)
  | c :: cs, m => ((c.spec m).1 :: (mapRun cs (c.spec m).2).1, (mapRun cs (c.spec m).2).2)

def LegalRun : List (RadixCall α) → TaggedMap α → Prop
  | [], _ => True
  | c :: cs, m => c.Legal L m ∧ LegalRun cs (c.spec m).2

structure Holds (t : RadixTree shift α) (m : TaggedMap α) : Prop where
  ok : TreeOk L t
  slots : ∀ j, rootSlot t.root j = match m j with
    | some (item, _) => .leaf item
    | none => .null
  tags : ∀ tag j, rootTag t.root tag j = match m j with
    | some (_, tags) => tags tag
    | none => false
  small : ∀ j, 2 ^ L.bits ≤ j → m j = none

variable {L} {m : TaggedMap α}

lemma Holds.item (h : Holds L t m) (j : ℕ) :
    slotItem (rootSlot t.root j) = some ((m j).map Prod.fst) := by
  rw [h.slots]
  cases m j <;> rfl

lemma Holds.isNull (h : Holds L t m) (j : ℕ) :
    (rootSlot t.root j).isNull = (m j).isNone := by
  rw [h.slots]
  cases m j <;> rfl

lemma Holds.retag (h : Holds L t m) (hroot : RootOk L root)
    (hs : ∀ j, rootSlot root j = rootSlot t.root j)
    (ht : ∀ tg j, rootTag root tg j = if tg = tag ∧ j = index then x else rootTag t.root tg j)
    (hx : m index = none → x = false) :
    Holds L { t with root := root } (update m index
      ((m index).map fun (item, tags) => (item, update tags tag x))) := by
  refine ⟨⟨hroot, h.ok.slab⟩, fun j => ?_, fun tg j => ?_, fun j hj => ?_⟩
  · rw [hs, h.slots]
    by_cases hj : j = index
    · subst hj
      rw [update_self]
      cases m j <;> rfl
    · rw [update_of_ne hj]
  · rw [ht, h.tags]
    by_cases hj : j = index
    · subst hj
      rw [update_self]
      cases hm : m j with
      | none => simp [hx hm]
      | some p =>
        by_cases htg : tg = tag
        · subst htg
          simp
        · simp [htg]
    · rw [update_of_ne hj, if_neg (by tauto)]
  · by_cases hji : j = index
    · subst hji
      rw [update_self, h.small j hj]
      rfl
    · rw [update_of_ne hji, h.small j hj]

lemma Holds.inserted (h : Holds L t m)
    {item : α} (hi : index < 2 ^ L.bits) (hm : m index = none) (hok : TreeOk L t')
    (hs : ∀ j, rootSlot t'.root j = if j = index then .leaf item else rootSlot t.root j)
    (ht : ∀ tg j, rootTag t'.root tg j = rootTag t.root tg j) :
    Holds L t' (update m index (some (item, fun _ => false))) := by
  refine ⟨hok, fun j => ?_, fun tg j => ?_, fun j hj => ?_⟩
  · rw [hs, h.slots]
    by_cases hj : j = index
    · rw [if_pos hj, hj, update_self]
    · rw [if_neg hj, update_of_ne hj]
  · rw [ht, h.tags]
    by_cases hj : j = index
    · rw [hj, hm, update_self]
    · rw [update_of_ne hj]
  · rw [update_of_ne (by omega), h.small j hj]

lemma Holds.deleted (h : Holds L t m)
    (hok : TreeOk L t') (hw : Without index t.root t'.root) :
    Holds L t' (update m index none) := by
  refine ⟨hok, fun j => ?_, fun tg j => ?_, fun j hj => ?_⟩
  · rw [hw.slots, h.slots]
    by_cases hj : j = index
    · rw [if_pos hj, hj, update_self]
    · rw [if_neg hj, update_of_ne hj]
  · rw [hw.tags, h.tags]
    by_cases hj : j = index
    · rw [if_pos hj, hj, update_self]
    · rw [if_neg hj, update_of_ne hj]
  · by_cases hji : j = index
    · rw [hji, update_self]
    · rw [update_of_ne hji, h.small j hj]

lemma RadixCall.exec_holds (h0 : 0 < shift) (h : Holds L t m)
    {c : RadixCall α} (hl : c.Legal L m) :
    ∃ t', c.exec L t = some ((c.spec m).1, t') ∧ Holds L t' (c.spec m).2 := by
  cases c with
  | insert index item =>
    have hi : index < 2 ^ L.bits := hl
    obtain ⟨t', hok, hold, hnew⟩ := radixTreeInsert_spec h0 h.ok hi item
    rw [exec, spec]
    rw [h.isNull] at hold hnew
    cases hm : m index with
    | some p =>
      obtain ⟨he, hroot⟩ := hold (by rw [hm]; rfl)
      rw [he]
      exact ⟨t', rfl, hok, hroot ▸ h.slots, hroot ▸ h.tags, h.small⟩
    | none =>
      obtain ⟨he, hs, ht⟩ := hnew (by rw [hm]; rfl)
      rw [he]
      exact ⟨t', rfl, h.inserted hi hm hok hs ht⟩
  | delete index =>
    obtain ⟨t', he, hok, hw⟩ := radixTreeDelete_spec h.ok (show index < 2 ^ L.bits from hl)
    simp only [exec, he, bind_some, h.item]
    exact ⟨t', rfl, h.deleted hok hw⟩
  | tagSet index tag =>
    obtain ⟨hi, hp⟩ := hl
    obtain ⟨p, hm⟩ := isSome_iff_exists.1 hp
    obtain ⟨root, he, hok, hs, ht⟩ := radixTreeTagSet_spec h.ok.root hi
      (by rw [h.isNull, hm]; rfl) tag
    simp only [exec, he, bind_some, h.item]
    exact ⟨_, rfl, h.retag hok hs ht (by simp [hm])⟩
  | tagClear index tag =>
    obtain ⟨root, he, hok, -, hs, ht⟩ := radixTreeTagClear_spec h.ok.root (show index < 2 ^ L.bits from hl) tag
    simp only [exec, he, bind_some, h.item]
    exact ⟨_, rfl, h.retag hok hs ht fun _ => rfl⟩

lemma radixRun_holds (h0 : 0 < shift) : ∀ (cs : List (RadixCall α)) {t : RadixTree shift α}
    {m : TaggedMap α}, Holds L t m → LegalRun L cs m →
    ∃ t', radixRun L cs t = some ((mapRun cs m).1, t') ∧ Holds L t' (mapRun cs m).2
  | [], t, m, h, _ => ⟨t, rfl, h⟩
  | c :: cs, t, m, h, hl => by
    obtain ⟨t1, he, h1⟩ := c.exec_holds h0 h hl.1
    obtain ⟨t2, he2, h2⟩ := radixRun_holds h0 cs h1 hl.2
    exact ⟨t2, by simp only [radixRun, he, bind_some, he2]; rfl, h2⟩

lemma holds_init : Holds L (radixTreeInit : RadixTree shift α) fun _ => none := by
  refine ⟨⟨rootOk_empty L, nofun⟩, fun j => rootSlot_of_null rfl j, fun tag j => ?_, fun _ _ => rfl⟩
  simp [radixTreeInit, rootTag]

/-- The radix tree refines a finite map: every run from an empty root goes through, each call
returns what it returns on the map, and then the tree reads as the map. -/
theorem radixTree_refines (h0 : 0 < shift) (cs : List (RadixCall α))
    (hl : LegalRun L cs fun _ => none) :
    ∃ t : RadixTree shift α, radixRun L cs radixTreeInit = some ((mapRun cs fun _ => none).1, t)
      ∧ (∀ index < 2 ^ L.bits, (radixTreeLookup L t.root index).bind slotItem
            = some (((mapRun cs fun _ => none).2 index).map Prod.fst)
          ∧ ∀ tag, radixTreeTagGet L t.root index tag
            = some (((mapRun cs fun _ => none).2 index).any fun (_, tags) => tags tag))
      ∧ ∀ tag, radixTreeTagged t.root tag = true
          ↔ ∃ index < 2 ^ L.bits, ((mapRun cs fun _ => none).2 index).any fun (_, tags) => tags tag := by
  obtain ⟨t, he, h⟩ := radixRun_holds h0 cs holds_init hl
  have htag : ∀ tag j, rootTag t.root tag j
      = ((mapRun cs fun _ => none).2 j).any fun (_, tags) => tags tag := by
    intro tag j
    rw [h.tags]
    cases (mapRun cs fun _ => none).2 j <;> rfl
  refine ⟨t, he, fun index hi => ⟨?_, fun tag => ?_⟩, fun tag => ?_⟩
  · rw [radixTreeLookup_spec h.ok.root hi, bind_some, h.item]
  · rw [radixTreeTagGet_spec h.ok.root hi, htag]
  rw [radixTreeTagged, h.ok.root.tags_iff]
  constructor
  · rintro ⟨j, hj⟩
    rw [htag] at hj
    refine ⟨j, ?_, hj⟩
    by_contra hge
    rw [h.small j (by omega)] at hj
    simp at hj
  · rintro ⟨j, -, hj⟩
    exact ⟨j, by rw [htag, hj]⟩

theorem radixTree_refines_four_calls :
    LegalRun .long64 [.insert 5 true, .tagSet 5 0, .insert (2 ^ 64 - 1) false, .delete 5] (fun _ => none)
      ∧ ∃ t : RadixTree 6 Bool,
        radixRun .long64 [.insert 5 true, .tagSet 5 0, .insert (2 ^ 64 - 1) false, .delete 5] radixTreeInit
          = some ([.code 0, .item (some true), .code 0, .item (some true)], t) := by
  have hl : LegalRun .long64 [.insert 5 true, .tagSet 5 0, .insert (2 ^ 64 - 1) false, .delete 5]
      (fun _ => none) :=
    ⟨(by decide : 5 < 2 ^ 64), ⟨(by decide : 5 < 2 ^ 64), rfl⟩,
      (by decide : 2 ^ 64 - 1 < 2 ^ 64), (by decide : 5 < 2 ^ 64), trivial⟩
  obtain ⟨t, he, -⟩ := radixTree_refines (by decide : 0 < 6) _ hl
  exact ⟨hl, t, he⟩

end

end LinuxKernel.Lib
