import LinuxKernel.Ebitmap

/-!
# An ebitmap is a finite set

The nodes are aligned and none is empty, so each set has one list, and comparing lists compares
sets. In the loop of `ebitmap_set_bit` `highbit` is the end of the last node.
-/

namespace LinuxKernel.Selinux

open List

variable {L : LongSize} {n n' : EbitmapNode L} {bit i b : ℕ} {k : Fin (ebitmapUnitNums L)}
  {l l' l₁ l₂ : List (EbitmapNode L)} {e e₁ e₂ : Ebitmap L} {A A₁ A₂ : Finset ℕ}

lemma ebitmapSize_pos (L : LongSize) : 0 < ebitmapSize L := by cases L <;> decide

lemma ebitmapSize_le (L : LongSize) : ebitmapSize L ≤ 192 := by cases L <;> decide

lemma div_lt_unitNums (h : i < ebitmapSize L) : i / L.bits < ebitmapUnitNums L :=
  Nat.div_lt_of_lt_mul (by rw [mul_comm]; exact h)

lemma getLsbD_one_shiftLeft {w o : ℕ} (ho : o < w) :
    (1#w <<< o).getLsbD i = decide (i = o) := by
  rw [BitVec.getLsbD_shiftLeft, BitVec.getLsbD_one]
  by_cases h : i = o
  · subst h
    simp [ho]
    omega
  have hne : ¬ (i - o = 0 ∧ o ≤ i) := by omega
  simp only [h, decide_false]
  by_cases hlt : i < o
  · simp [hlt]
  · have : i - o ≠ 0 := by omega
    simp [this]

lemma and_shiftLeft_ne_zero {w o : ℕ} (x : BitVec w) (ho : o < w) :
    decide (x &&& 1#w <<< o ≠ 0#w) = x.getLsbD o := by
  cases hx : x.getLsbD o with
  | false =>
    rw [decide_eq_false_iff_not, not_not]
    refine BitVec.eq_of_getLsbD_eq fun i hi => ?_
    rw [BitVec.getLsbD_and, getLsbD_one_shiftLeft ho, BitVec.getLsbD_zero]
    by_cases hio : i = o
    · rw [hio, hx, Bool.false_and]
    · rw [decide_eq_false hio, Bool.and_false]
  | true =>
    rw [decide_eq_true_eq]
    intro hzero
    have hbit := congrArg (fun y => y.getLsbD o) hzero
    simp only [BitVec.getLsbD_and, getLsbD_one_shiftLeft ho, hx, BitVec.getLsbD_zero] at hbit
    simp at hbit

structure EbitmapNode.Has (n : EbitmapNode L) (bit : ℕ) : Prop where
  ge : n.startbit ≤ bit
  lt : bit < n.startbit + ebitmapSize L
  test : n.test (bit - n.startbit) = true

lemma index_lt (hge : n.startbit ≤ bit) (hlt : bit < n.startbit + ebitmapSize L) :
    n.index bit < ebitmapUnitNums L := div_lt_unitNums (by omega)

lemma nodeGetBit_eq (hge : n.startbit ≤ bit) (hlt : bit < n.startbit + ebitmapSize L) :
    ebitmapNodeGetBit n bit = some (n.test (bit - n.startbit)) := by
  have hidx := index_lt hge hlt
  rw [ebitmapNodeGetBit, dif_pos hidx, EbitmapNode.mask,
    and_shiftLeft_ne_zero _ (Nat.mod_lt _ L.bits_pos), EbitmapNode.test,
    dif_pos (show (bit - n.startbit) / L.bits < ebitmapUnitNums L from hidx)]
  rfl

lemma index_eq_iff {a w : ℕ} : a = b ↔ a / w = b / w ∧ a % w = b % w :=
  ⟨fun h => by rw [h]; exact ⟨rfl, rfl⟩, fun ⟨h1, h2⟩ => by
    rw [← Nat.div_add_mod a w, ← Nat.div_add_mod b w, h1, h2]⟩

lemma test_update {x : BitVec L.bits} (n : EbitmapNode L) (i : ℕ) :
    EbitmapNode.test { n with maps := Function.update n.maps k x } i =
      if i / L.bits = k then x.getLsbD (i % L.bits) else n.test i := by
  rw [EbitmapNode.test, EbitmapNode.test]
  by_cases hk : i / L.bits = k
  · have hlt : i / L.bits < ebitmapUnitNums L := hk ▸ k.isLt
    have hfin : (⟨i / L.bits, hlt⟩ : Fin (ebitmapUnitNums L)) = k := Fin.ext hk
    rw [dif_pos hlt, if_pos hk, hfin]
    show (Function.update n.maps k x k).getLsbD _ = _
    rw [Function.update_self]
  · rw [if_neg hk]
    by_cases hlt : i / L.bits < ebitmapUnitNums L
    · have hne : (⟨i / L.bits, hlt⟩ : Fin (ebitmapUnitNums L)) ≠ k := fun he =>
        hk (congrArg Fin.val he)
      rw [dif_pos hlt, dif_pos hlt]
      show (Function.update n.maps k x _).getLsbD _ = _
      rw [Function.update_of_ne hne]
    · rw [dif_neg hlt, dif_neg hlt]

lemma test_of_index (n : EbitmapNode L) (hk : i / L.bits = k) :
    n.test i = (n.maps k).getLsbD (i % L.bits) := by
  have hlt : i / L.bits < ebitmapUnitNums L := hk ▸ k.isLt
  rw [EbitmapNode.test, dif_pos hlt]
  congr 2
  exact Fin.ext hk

lemma mask_getLsbD (hk : i / L.bits = n.index bit) :
    (n.mask bit).getLsbD (i % L.bits) = decide (i = bit - n.startbit) := by
  rw [EbitmapNode.index] at hk
  rw [EbitmapNode.mask, getLsbD_one_shiftLeft (Nat.mod_lt _ L.bits_pos), decide_eq_decide,
    index_eq_iff (a := i) (b := bit - n.startbit) (w := L.bits)]
  simp [hk]

lemma nodeSetBit_spec (hge : n.startbit ≤ bit) (hlt : bit < n.startbit + ebitmapSize L) :
    ∃ n', ebitmapNodeSetBit n bit = some n' ∧ n'.startbit = n.startbit
      ∧ ∀ i, n'.test i = (decide (i = bit - n.startbit) || n.test i) := by
  have hidx := index_lt hge hlt
  refine ⟨_, dif_pos hidx, rfl, fun i => ?_⟩
  rw [test_update]
  by_cases hk : i / L.bits = n.index bit
  · rw [if_pos hk, BitVec.getLsbD_or, mask_getLsbD hk, test_of_index n (k := ⟨_, hidx⟩) hk,
      Bool.or_comm]
  · rw [if_neg hk, decide_eq_false fun he => hk (by rw [he]; rfl), Bool.false_or]

lemma nodeClrBit_spec (hge : n.startbit ≤ bit) (hlt : bit < n.startbit + ebitmapSize L) :
    ∃ n', ebitmapNodeClrBit n bit = some n' ∧ n'.startbit = n.startbit
      ∧ ∀ i, n'.test i = (n.test i && !decide (i = bit - n.startbit)) := by
  have hidx := index_lt hge hlt
  refine ⟨_, dif_pos hidx, rfl, fun i => ?_⟩
  rw [test_update]
  by_cases hk : i / L.bits = n.index bit
  · rw [if_pos hk, BitVec.getLsbD_and, BitVec.getLsbD_not, mask_getLsbD hk,
      decide_eq_true (Nat.mod_lt i L.bits_pos), Bool.true_and, test_of_index n (k := ⟨_, hidx⟩) hk]
  · rw [if_neg hk, decide_eq_false fun he => hk (by rw [he]; rfl), Bool.not_false, Bool.and_true]

lemma test_zero (start i : ℕ) : (⟨fun _ => 0, start⟩ : EbitmapNode L).test i = false := by
  rw [EbitmapNode.test]
  split_ifs
  · exact BitVec.getLsbD_zero
  · rfl

lemma findFirstBit_lt_iff : n.findFirstBit < ebitmapSize L ↔ ∃ i,
    i < ebitmapSize L ∧ n.test i = true := by
  rw [EbitmapNode.findFirstBit]
  cases hfind : (range (ebitmapSize L)).find? n.test with
  | none =>
    rw [Option.getD_none]
    refine ⟨fun h => absurd h (lt_irrefl _), fun ⟨i, hi, ht⟩ => ?_⟩
    exact absurd ht (List.find?_eq_none.mp hfind i (mem_range.mpr hi))
  | some i =>
    have hi := mem_range.mp (List.mem_of_find?_eq_some hfind)
    exact ⟨fun _ => ⟨i, hi, List.find?_some hfind⟩, fun _ => hi⟩

lemma test_place (n : EbitmapNode L) (k : Fin (ebitmapUnitNums L)) {o : ℕ} (ho : o < L.bits) :
    k * L.bits + o < ebitmapSize L ∧ n.test (k * L.bits + o) = (n.maps k).getLsbD o := by
  have hk : (k * L.bits + o) / L.bits = k := by
    rw [add_comm, Nat.add_mul_div_right _ _ L.bits_pos, Nat.div_eq_of_lt ho, zero_add]
  have ho' : (k * L.bits + o) % L.bits = o := by
    rw [add_comm, Nat.add_mul_mod_self_right, Nat.mod_eq_of_lt ho]
  have hk' : (k * L.bits + o) / L.bits < ebitmapUnitNums L := by
    rw [hk]
    exact k.isLt
  have hfin : (⟨(k * L.bits + o) / L.bits, hk'⟩ : Fin (ebitmapUnitNums L)) = k := Fin.ext hk
  refine ⟨?_, ?_⟩
  · have := Nat.mul_le_mul_right L.bits (Nat.succ_le_of_lt k.isLt)
    rw [Nat.succ_mul] at this
    rw [ebitmapSize]
    omega
  · rw [EbitmapNode.test, dif_pos hk', ho', hfin]

lemma EbitmapNode.ext_test (hs : n.startbit = n'.startbit)
    (h : ∀ i, i < ebitmapSize L → n.test i = n'.test i) : n = n' := by
  obtain ⟨maps, start⟩ := n
  obtain ⟨maps', start'⟩ := n'
  obtain rfl : start = start' := hs
  congr
  funext k
  refine BitVec.eq_of_getLsbD_eq fun o ho => ?_
  obtain ⟨hlt, htest⟩ := test_place (⟨maps, start⟩ : EbitmapNode L) k ho
  obtain ⟨-, htest'⟩ := test_place (⟨maps', start⟩ : EbitmapNode L) k ho
  rw [← show _ = (maps k).getLsbD o from htest, ← show _ = (maps' k).getLsbD o from htest']
  exact h _ hlt

structure NodeOk (n : EbitmapNode L) : Prop where
  aligned : ebitmapSize L ∣ n.startbit
  lt : n.startbit < 2 ^ 31
  nonempty : ∃ bit, n.Has bit

structure NodesOk (l : List (EbitmapNode L)) : Prop where
  sorted : l.Pairwise fun n n' => n.startbit < n'.startbit
  nodes : ∀ n ∈ l, NodeOk n

def Has (l : List (EbitmapNode L)) (bit : ℕ) : Prop := ∃ n ∈ l, n.Has bit

def lastStop (prev : Option (EbitmapNode L)) (l : List (EbitmapNode L)) : ℕ :=
  ((l.getLast?.or prev).map EbitmapNode.stop).getD 0

lemma has_cons : Has (n :: l) bit ↔ n.Has bit ∨ Has l bit := by
  simp only [Has, mem_cons, or_and_right, exists_or, exists_eq_left]

lemma NodesOk.tail (h : NodesOk (n :: l)) : NodesOk l :=
  ⟨(pairwise_cons.mp h.sorted).2, fun m hm => h.nodes m (mem_cons_of_mem _ hm)⟩

lemma eq_of_aligned {s : ℕ} (h : ebitmapSize L ∣ s) (hge : s ≤ b)
    (hlt : b < s + ebitmapSize L) : s = b - b % ebitmapSize L := by
  obtain ⟨k, rfl⟩ := h
  have hdiv : b / ebitmapSize L = k := by
    refine Nat.div_eq_of_lt_le (by rw [mul_comm]; exact hge) ?_
    rw [Nat.succ_mul, mul_comm]
    exact hlt
  have := Nat.div_add_mod b (ebitmapSize L)
  rw [hdiv] at this
  omega

lemma add_size_le {s s' : ℕ} (h : ebitmapSize L ∣ s) (h' : ebitmapSize L ∣ s') (hlt : s < s') :
    s + ebitmapSize L ≤ s' := by
  have := Nat.le_of_dvd (Nat.sub_pos_of_lt hlt) (Nat.dvd_sub h' h)
  omega

lemma NodeOk.startbit_eq (h : NodeOk n) (hb : n.Has b) : n.startbit = b - b % ebitmapSize L :=
  eq_of_aligned h.aligned hb.ge hb.lt

lemma NodeOk.end_le (h : NodeOk n) (h' : NodeOk n') (hlt : n.startbit < n'.startbit) :
    n.startbit + ebitmapSize L ≤ n'.startbit :=
  add_size_le h.aligned h'.aligned hlt

lemma NodeOk.stop_eq (h : NodeOk n) : n.stop = n.startbit + ebitmapSize L := by
  have h1 := h.lt
  have h2 := ebitmapSize_le L
  exact Nat.mod_eq_of_lt (by omega)

lemma NodeOk.addMod_eq (h : NodeOk n) :
    addMod L.bits n.startbit (ebitmapSize L) = n.startbit + ebitmapSize L := by
  have h1 := h.lt
  have h2 := ebitmapSize_le L
  have h3 := L.two_pow_bits_ge
  exact addMod_of_lt (by omega)

lemma NodesOk.head_le (h : NodesOk (n :: l)) {m : EbitmapNode L} (hm : m ∈ n :: l) :
    n.startbit ≤ m.startbit := by
  rcases mem_cons.mp hm with rfl | hm
  · exact le_rfl
  · exact ((pairwise_cons.mp h.sorted).1 m hm).le

lemma NodesOk.not_has_tail (h : NodesOk (n :: l)) (hlt : b < n.startbit + ebitmapSize L) :
    ¬ Has l b := by
  rintro ⟨m, hm, hb⟩
  have hstart := (pairwise_cons.mp h.sorted).1 m hm
  have hend := (h.nodes n mem_cons_self).end_le (h.nodes m (mem_cons_of_mem _ hm)) hstart
  have := hb.ge
  omega

lemma NodesOk.not_has (h : NodesOk (n :: l)) (hlt : b < n.startbit) : ¬ Has (n :: l) b := by
  rintro ⟨m, hm, hb⟩
  have := h.head_le hm
  have := hb.ge
  omega

lemma NodesOk.cons (h : NodesOk l) (hn : NodeOk n)
    (hlt : ∀ b, Has l b → n.startbit + ebitmapSize L ≤ b) :
    NodesOk (n :: l) := by
  refine ⟨pairwise_cons.mpr ⟨fun m hm => ?_, h.sorted⟩, fun m hm => ?_⟩
  · obtain ⟨b, hb⟩ := (h.nodes m hm).nonempty
    have h1 := hlt b ⟨m, hm, hb⟩
    have h2 := hb.lt
    omega
  · rcases mem_cons.mp hm with rfl | hm
    · exact hn
    · exact h.nodes m hm

lemma lastStop_cons (prev : Option (EbitmapNode L)) :
    lastStop prev (n :: l) = lastStop (some n) l := by
  rw [lastStop, lastStop, getLast?_cons]
  cases l.getLast? <;> rfl

lemma ebitmapNew_spec (hbit : bit < 2 ^ 31) :
    ∃ new : EbitmapNode L, ebitmapNew bit = some new ∧ new.startbit = bit - bit % ebitmapSize L
      ∧ NodeOk new ∧ ∀ b, new.Has b ↔ b = bit := by
  have hpos := ebitmapSize_pos L
  have hmod := Nat.mod_lt bit hpos
  have hstart : (bit - bit % ebitmapSize L) % 2 ^ 32 = bit - bit % ebitmapSize L :=
    Nat.mod_eq_of_lt (by omega)
  have hbit' : bit % 2 ^ 32 = bit := Nat.mod_eq_of_lt (by omega)
  have hge : (⟨fun _ => 0, bit - bit % ebitmapSize L⟩ : EbitmapNode L).startbit ≤ bit :=
    Nat.sub_le _ _
  have hlt : bit < (⟨fun _ => 0, bit - bit % ebitmapSize L⟩ : EbitmapNode L).startbit
      + ebitmapSize L := by
    show bit < bit - bit % ebitmapSize L + ebitmapSize L
    omega
  obtain ⟨new, hnew, hs, ht⟩ := nodeSetBit_spec hge hlt
  have hs' : new.startbit = bit - bit % ebitmapSize L := hs
  have hhas : ∀ b, new.Has b ↔ b = bit := by
    intro b
    constructor
    · rintro ⟨h1, h2, h3⟩
      rw [ht, test_zero, Bool.or_false, decide_eq_true_eq] at h3
      omega
    · rintro rfl
      refine ⟨by omega, by omega, ?_⟩
      rw [ht, hs', decide_eq_true rfl, Bool.true_or]
  refine ⟨new, ?_, hs', ⟨?_, by omega, bit, (hhas bit).mpr rfl⟩, hhas⟩
  · rw [ebitmapNew, hstart, hbit']
    exact hnew
  · rw [hs']
    exact (Nat.dvd_sub_mod bit)

lemma NodeOk.setBit (h : NodeOk n) (hge : n.startbit ≤ bit)
    (hlt : bit < n.startbit + ebitmapSize L)
    (hs : n'.startbit = n.startbit)
    (ht : ∀ i, n'.test i = (decide (i = bit - n.startbit) || n.test i)) :
    NodeOk n' ∧ ∀ b, n'.Has b ↔ b = bit ∨ n.Has b := by
  have hhas : ∀ b, n'.Has b ↔ b = bit ∨ n.Has b := by
    intro b
    constructor
    · rintro ⟨h1, h2, h3⟩
      rw [ht, hs, Bool.or_eq_true, decide_eq_true_eq] at h3
      rcases h3 with h3 | h3
      · left
        omega
      · exact .inr ⟨by omega, by omega, h3⟩
    · rintro (rfl | ⟨h1, h2, h3⟩)
      · refine ⟨by omega, by omega, ?_⟩
        rw [ht, hs, decide_eq_true rfl, Bool.true_or]
      · refine ⟨by omega, by omega, ?_⟩
        rw [ht, hs, h3, Bool.or_true]
  exact ⟨⟨hs ▸ h.aligned, hs ▸ h.lt, bit, (hhas bit).mpr (.inl rfl)⟩, hhas⟩

lemma has_clrBit (hge : n.startbit ≤ bit) (hs : n'.startbit = n.startbit)
    (ht : ∀ i, n'.test i = (n.test i && !decide (i = bit - n.startbit))) (b : ℕ) :
    n'.Has b ↔ n.Has b ∧ b ≠ bit := by
  constructor
  · rintro ⟨h1, h2, h3⟩
    rw [ht, hs, Bool.and_eq_true, Bool.not_eq_true', decide_eq_false_iff_not] at h3
    exact ⟨⟨by omega, by omega, h3.1⟩, fun he => h3.2 (by rw [he])⟩
  · rintro ⟨⟨h1, h2, h3⟩, hne⟩
    refine ⟨by omega, by omega, ?_⟩
    rw [ht, hs, h3, decide_eq_false (by omega)]
    rfl

lemma lastStop_congr (hs : n'.startbit = n.startbit) (l : List (EbitmapNode L)) :
    lastStop (some n') l = lastStop (some n) l := by
  rw [lastStop, lastStop]
  cases l.getLast? with
  | none =>
    show n'.stop = n.stop
    rw [EbitmapNode.stop, EbitmapNode.stop, hs]
  | some m => rfl

def BitsAfter (bit : ℕ) (value : Bool) (l l' : List (EbitmapNode L)) : Prop :=
  ∀ b, Has l' b ↔ if value then b = bit ∨ Has l b else Has l b ∧ b ≠ bit

lemma setBitLoop_spec (hbit : bit < 2 ^ 31) (value : Bool) :
    ∀ (l : List (EbitmapNode L)) (prev : Option (EbitmapNode L)), NodesOk l →
      ∃ l', setBitLoop bit value (lastStop prev l) prev l = some (l', lastStop prev l')
        ∧ NodesOk l' ∧ BitsAfter bit value l l'
  | [], prev, h => by
    rw [setBitLoop]
    cases value with
    | false => exact ⟨[], rfl, h, fun b => by simp [Has]⟩
    | true =>
      obtain ⟨new, hnew, -, hok, hhas⟩ := ebitmapNew_spec (L := L) hbit
      refine ⟨[new], ?_, ?_, fun b => ?_⟩
      · rw [if_pos rfl, hnew]
        rfl
      · exact ⟨pairwise_singleton _ _, fun m hm => mem_singleton.mp hm ▸ hok⟩
      · simp [Has, hhas]
  | n :: l, prev, h => by
    have hn := h.nodes n mem_cons_self
    have hbit' : bit % 2 ^ 32 = bit := Nat.mod_eq_of_lt (by omega)
    rw [setBitLoop, hn.addMod_eq, hbit']
    by_cases hge : n.startbit ≤ bit
    · rw [if_pos hge]
      by_cases hlt : bit < n.startbit + ebitmapSize L
      · rw [if_pos hlt]
        have htail : ∀ b, Has l b → b ≠ bit := fun b hb he => h.not_has_tail hlt (he ▸ hb)
        have hsort := pairwise_cons.mp h.sorted
        cases value with
        | true =>
          obtain ⟨n', hset, hs, ht⟩ := nodeSetBit_spec hge hlt
          obtain ⟨hok, hhas⟩ := hn.setBit hge hlt hs ht
          refine ⟨n' :: l, ?_, ⟨pairwise_cons.mpr ⟨by rw [hs]; exact hsort.1, hsort.2⟩,
            fun m hm => ?_⟩, fun b => ?_⟩
          · rw [if_pos rfl, hset, lastStop_cons, lastStop_cons, lastStop_congr hs]
            rfl
          · rcases mem_cons.mp hm with rfl | hm
            · exact hok
            · exact h.nodes m (mem_cons_of_mem _ hm)
          · rw [has_cons, has_cons, hhas, if_pos rfl, or_assoc]
        | false =>
          obtain ⟨n', hclr, hs, ht⟩ := nodeClrBit_spec hge hlt
          have hhas := has_clrBit hge hs ht
          rw [if_neg Bool.false_ne_true, hclr, Option.map_some]
          by_cases hfirst : n'.findFirstBit < ebitmapSize L
          · -- another bit is left in the node
            obtain ⟨i, hi, hti⟩ := findFirstBit_lt_iff.mp hfirst
            have hok : NodeOk n' := by
              refine ⟨hs ▸ hn.aligned, hs ▸ hn.lt, n'.startbit + i, by omega, by omega, ?_⟩
              rw [Nat.add_sub_cancel_left]
              exact hti
            refine ⟨n' :: l, ?_, ⟨pairwise_cons.mpr ⟨by rw [hs]; exact hsort.1, hsort.2⟩,
              fun m hm => ?_⟩, fun b => ?_⟩
            · rw [if_pos hfirst, lastStop_cons, lastStop_cons, lastStop_congr hs]
            · rcases mem_cons.mp hm with rfl | hm
              · exact hok
              · exact h.nodes m (mem_cons_of_mem _ hm)
            · rw [has_cons, has_cons, hhas, if_neg Bool.false_ne_true]
              have := htail b
              tauto
          · -- the node is dropped
            have hnone : ∀ b, ¬ n'.Has b := fun b hb => hfirst (findFirstBit_lt_iff.mpr
              ⟨b - n'.startbit, by have := hb.ge; have := hb.lt; omega, hb.test⟩)
            refine ⟨l, ?_, h.tail, fun b => ?_⟩
            · rw [if_neg hfirst]
              cases l with
              | nil => rfl
              | cons m l =>
                rw [lastStop_cons, lastStop_cons, lastStop_cons]
                rfl
            · rw [has_cons, if_neg Bool.false_ne_true]
              have h1 := hnone b
              rw [hhas] at h1
              tauto
      · -- the bit is behind the node
        obtain ⟨l', hrec, hok, hbits⟩ := setBitLoop_spec hbit value l (some n) h.tail
        have hbehind : ∀ b, Has l' b → n.startbit + ebitmapSize L ≤ b := by
          intro b hb
          have hb' := (hbits b).mp hb
          by_contra hlt'
          have hnot := h.not_has_tail (not_le.mp hlt')
          cases value
          · exact hnot (by simpa using hb'.1)
          · rcases hb' with rfl | hb'
            · omega
            · exact hnot hb'
        refine ⟨n :: l', ?_, hok.cons hn hbehind, fun b => ?_⟩
        · rw [if_neg hlt, lastStop_cons, hrec, lastStop_cons]
          rfl
        rw [has_cons, has_cons, hbits b]
        have hnb : n.Has b → b ≠ bit := fun hb he => by
          have := hb.lt
          omega
        cases value
        · simp only [Bool.false_eq_true, if_false]
          tauto
        · simp only [if_true]
          tauto
    · -- the bit is before the node
      rw [if_neg hge]
      cases value with
      | false =>
        refine ⟨n :: l, rfl, h, fun b => ?_⟩
        rw [if_neg Bool.false_ne_true]
        have := h.not_has (not_le.mp hge)
        exact ⟨fun hb => ⟨hb, fun he => this (he ▸ hb)⟩, fun hb => hb.1⟩
      | true =>
        obtain ⟨new, hnew, hs, hok, hhas⟩ := ebitmapNew_spec (L := L) hbit
        have hend := hok.end_le hn (by omega)
        refine ⟨new :: n :: l, ?_, h.cons hok fun b hb => ?_, fun b => ?_⟩
        · rw [if_pos rfl, hnew, lastStop_cons, lastStop_cons, lastStop_cons]
          rfl
        · by_contra hlt'
          exact h.not_has (by omega) hb
        · rw [has_cons, hhas, if_pos rfl]

lemma NodesOk.end_le_lastStop : ∀ {l : List (EbitmapNode L)} (prev : Option (EbitmapNode L)),
    NodesOk l → ∀ n ∈ l, n.startbit + ebitmapSize L ≤ lastStop prev l
  | [], _, _, n, hn => absurd hn not_mem_nil
  | m :: l, prev, h, n, hn => by
    rw [lastStop_cons]
    rcases mem_cons.mp hn with rfl | hn
    · cases l with
      | nil => exact (h.nodes n mem_cons_self).stop_eq.ge
      | cons m' l =>
        have hlt := (pairwise_cons.mp h.sorted).1 m' mem_cons_self
        have := h.tail.end_le_lastStop (some n) m' mem_cons_self
        omega
    · exact h.tail.end_le_lastStop (some m) n hn

lemma getBit_loop (hbit : bit < 2 ^ L.bits) : ∀ {l : List (EbitmapNode L)}, NodesOk l →
    ∃ v, ebitmapGetBit.loop bit l = some v ∧ (v = true ↔ Has l bit)
  | [], _ => ⟨false, rfl, by simp [Has]⟩
  | n :: l, h => by
    have hn := h.nodes n mem_cons_self
    rw [ebitmapGetBit.loop, hn.addMod_eq]
    by_cases hge : n.startbit ≤ bit
    · rw [if_pos hge]
      by_cases hlt : bit < n.startbit + ebitmapSize L
      · have hmod : bit % 2 ^ 32 = bit := by
          have := hn.lt
          have := ebitmapSize_le L
          exact Nat.mod_eq_of_lt (by omega)
        rw [if_pos hlt, hmod, nodeGetBit_eq hge hlt]
        refine ⟨_, rfl, ?_⟩
        rw [has_cons]
        exact ⟨fun ht => .inl ⟨hge, hlt, ht⟩,
          fun hb => hb.elim (fun hb => hb.test) fun hb => absurd hb (h.not_has_tail hlt)⟩
      · obtain ⟨v, hv, hiff⟩ := getBit_loop hbit h.tail
        rw [if_neg hlt]
        refine ⟨v, hv, hiff.trans ?_⟩
        rw [has_cons]
        exact ⟨.inr, fun hb => hb.elim (fun hb => absurd hb.lt hlt) id⟩
    · rw [if_neg hge]
      exact ⟨false, rfl, by simpa using h.not_has (not_le.mp hge)⟩

lemma cmp_loop : ∀ l₁ l₂ : List (EbitmapNode L), ebitmapCmp.loop l₁ l₂ = true ↔ l₁ = l₂
  | [], [] => by simp [ebitmapCmp.loop]
  | [], _ :: _ => by simp [ebitmapCmp.loop]
  | _ :: _, [] => by simp [ebitmapCmp.loop]
  | n₁ :: l₁, n₂ :: l₂ => by
    rw [ebitmapCmp.loop]
    have hnode : n₁ = n₂ ↔ n₁.startbit = n₂.startbit ∧ n₁.maps = n₂.maps := by
      cases n₁
      cases n₂
      simp [and_comm]
    by_cases hn : n₁.startbit = n₂.startbit ∧ n₁.maps = n₂.maps
    · rw [if_pos hn, cmp_loop l₁ l₂, List.cons.injEq, hnode]
      simp [hn]
    · rw [if_neg hn, List.cons.injEq, hnode]
      simp [hn]

lemma NodesOk.head_le_of_sub {n₁ n₂ : EbitmapNode L} (h₁ : NodesOk (n₁ :: l₁))
    (h₂ : NodesOk (n₂ :: l₂)) (hsub : ∀ b, Has (n₂ :: l₂) b → Has (n₁ :: l₁) b) :
    n₁.startbit ≤ n₂.startbit := by
  have hn₂ := h₂.nodes n₂ mem_cons_self
  obtain ⟨b, hb⟩ := hn₂.nonempty
  obtain ⟨m, hm, hb'⟩ := hsub b ⟨n₂, mem_cons_self, hb⟩
  have := h₁.head_le hm
  rw [hn₂.startbit_eq hb, ← (h₁.nodes m hm).startbit_eq hb']
  exact this

lemma NodesOk.ext : ∀ {l₁ l₂ : List (EbitmapNode L)}, NodesOk l₁ → NodesOk l₂ →
    (∀ b, Has l₁ b ↔ Has l₂ b) → l₁ = l₂
  | [], [], _, _, _ => rfl
  | [], n₂ :: l₂, _, h₂, h => by
    obtain ⟨b, hb⟩ := (h₂.nodes n₂ mem_cons_self).nonempty
    obtain ⟨m, hm, -⟩ := (h b).mpr ⟨n₂, mem_cons_self, hb⟩
    exact absurd hm not_mem_nil
  | n₁ :: l₁, [], h₁, _, h => by
    obtain ⟨b, hb⟩ := (h₁.nodes n₁ mem_cons_self).nonempty
    obtain ⟨m, hm, -⟩ := (h b).mp ⟨n₁, mem_cons_self, hb⟩
    exact absurd hm not_mem_nil
  | n₁ :: l₁, n₂ :: l₂, h₁, h₂, h => by
    have hs : n₁.startbit = n₂.startbit :=
      le_antisymm (h₁.head_le_of_sub h₂ fun b => (h b).mpr) (h₂.head_le_of_sub h₁ fun b => (h b).mp)
    have hhead : ∀ b, n₁.Has b ↔ n₂.Has b := by
      intro b
      constructor
      · intro hb
        have hlt := hb.lt
        exact (has_cons.mp ((h b).mp (has_cons.mpr (.inl hb)))).resolve_right
          (h₂.not_has_tail (by omega))
      · intro hb
        have hlt := hb.lt
        exact (has_cons.mp ((h b).mpr (has_cons.mpr (.inl hb)))).resolve_right
          (h₁.not_has_tail (by omega))
    have hn : n₁ = n₂ := by
      refine EbitmapNode.ext_test hs fun i hi => ?_
      have h1 := hhead (n₁.startbit + i)
      rw [Bool.eq_iff_iff]
      constructor
      · intro ht
        have := (h1.mp ⟨by omega, by omega, by rw [Nat.add_sub_cancel_left]; exact ht⟩).test
        rwa [hs, Nat.add_sub_cancel_left] at this
      intro ht
      have := (h1.mpr ⟨by omega, by omega, by
        rw [hs, Nat.add_sub_cancel_left]
        exact ht⟩).test
      rwa [Nat.add_sub_cancel_left] at this
    subst hn
    have htail : ∀ b, Has l₁ b ↔ Has l₂ b := by
      intro b
      have hb := h b
      rw [has_cons, has_cons] at hb
      by_cases hlt : b < n₁.startbit + ebitmapSize L
      · exact iff_of_false (h₁.not_has_tail hlt) (h₂.not_has_tail hlt)
      · have hno : ¬ n₁.Has b := fun hb => hlt hb.lt
        tauto
    rw [h₁.tail.ext h₂.tail htail]

lemma maps_sub_iff {n₁ n₂ : EbitmapNode L} (hs : n₁.startbit = n₂.startbit) :
    (∀ i, n₁.maps i &&& n₂.maps i = n₂.maps i) ↔ ∀ b, n₂.Has b → n₁.Has b := by
  constructor
  · rintro h b ⟨h1, h2, h3⟩
    refine ⟨by omega, by omega, ?_⟩
    rw [hs]
    rw [EbitmapNode.test] at h3 ⊢
    split_ifs at h3 with hlt
    rw [dif_pos hlt]
    have hbit := congrArg (fun x => x.getLsbD ((b - n₂.startbit) % L.bits)) (h ⟨_, hlt⟩)
    simp only [BitVec.getLsbD_and, h3, Bool.and_true] at hbit
    exact hbit
  · intro h k
    refine BitVec.eq_of_getLsbD_eq fun o ho => ?_
    rw [BitVec.getLsbD_and]
    cases hbit : (n₂.maps k).getLsbD o with
    | false => rw [Bool.and_false]
    | true =>
      obtain ⟨hlt, htest₂⟩ := test_place n₂ k ho
      have hhas : n₂.Has (n₂.startbit + (k * L.bits + o)) := by
        refine ⟨by omega, by omega, ?_⟩
        rw [Nat.add_sub_cancel_left, htest₂]
        exact hbit
      have ht := (h _ hhas).test
      rw [hs, Nat.add_sub_cancel_left, (test_place n₁ k ho).2] at ht
      rw [Bool.and_true]
      exact ht

lemma contains_loop : ∀ {l₁ l₂ : List (EbitmapNode L)}, NodesOk l₁ → NodesOk l₂ →
    (ebitmapContains.loop l₁ l₂ = true ↔ ∀ b, Has l₂ b → Has l₁ b)
  | l₁, [], _, _ => by
    rw [ebitmapContains.loop]
    exact iff_of_true rfl fun b ⟨m, hm, _⟩ => absurd hm not_mem_nil
  | [], n₂ :: l₂, _, h₂ => by
    rw [ebitmapContains.loop]
    refine iff_of_false Bool.false_ne_true fun h => ?_
    obtain ⟨b, hb⟩ := (h₂.nodes n₂ mem_cons_self).nonempty
    obtain ⟨m, hm, -⟩ := h b ⟨n₂, mem_cons_self, hb⟩
    exact absurd hm not_mem_nil
  | n₁ :: l₁, n₂ :: l₂, h₁, h₂ => by
    have hn₁ := h₁.nodes n₁ mem_cons_self
    have hn₂ := h₂.nodes n₂ mem_cons_self
    rw [ebitmapContains.loop]
    by_cases hle : n₁.startbit ≤ n₂.startbit
    · rw [if_pos hle]
      by_cases hlt : n₁.startbit < n₂.startbit
      · -- the first node of the one has no bit of the other
        rw [if_pos hlt, contains_loop h₁.tail h₂]
        have hend := hn₁.end_le hn₂ hlt
        refine forall_congr' fun b => ⟨fun h hb => has_cons.mpr (.inr (h hb)), fun h hb => ?_⟩
        refine (has_cons.mp (h hb)).resolve_left fun hb' => ?_
        have := hb'.lt
        exact h₂.not_has (by omega) hb
      have hs : n₁.startbit = n₂.startbit := by omega
      rw [if_neg hlt]
      have hsplit : (∀ b, Has (n₂ :: l₂) b → Has (n₁ :: l₁) b) ↔
          (∀ b, n₂.Has b → n₁.Has b) ∧ ∀ b, Has l₂ b → Has l₁ b := by
        constructor
        · intro h
          refine ⟨fun b hb => ?_, fun b hb => ?_⟩
          · have hlt' := hb.lt
            exact (has_cons.mp (h b (has_cons.mpr (.inl hb)))).resolve_right
              (h₁.not_has_tail (by omega))
          · refine (has_cons.mp (h b (has_cons.mpr (.inr hb)))).resolve_left fun hb' => ?_
            have := hb'.lt
            exact h₂.not_has_tail (by omega) hb
        · rintro ⟨h1, h2⟩ b hb
          exact has_cons.mpr ((has_cons.mp hb).imp (h1 b) (h2 b))
      rw [hsplit, ← maps_sub_iff hs, ← contains_loop h₁.tail h₂.tail]
      split_ifs with hmaps
      · exact ⟨fun h => ⟨hmaps, h⟩, fun h => h.2⟩
      · exact iff_of_false id fun h => hmaps h.1
    · rw [if_neg hle]
      exact iff_of_false Bool.false_ne_true fun h => hle (h₁.head_le_of_sub h₂ h)

inductive Built : Ebitmap L → Finset ℕ → Prop
  | init : Built ebitmapInit ∅
  | set {e e' : Ebitmap L} {A : Finset ℕ} (bit : ℕ) (value : Bool) : Built e A → bit < 2 ^ 31 →
    ebitmapSetBit e bit value = some e' → Built e' (if value then insert bit A else A.erase bit)
  | cpy {e : Ebitmap L} {A : Finset ℕ} : Built e A → Built (ebitmapCpy e) A

structure Represents (e : Ebitmap L) (A : Finset ℕ) : Prop where
  nodes : NodesOk e.node
  highbit : e.highbit = lastStop none e.node
  has : ∀ b, Has e.node b ↔ b ∈ A

lemma ebitmapCpy_eq (e : Ebitmap L) : ebitmapCpy e = e := by
  have hfold : ∀ l dst : List (EbitmapNode L),
      l.foldl (fun dst n => dst ++ [(⟨n.maps, n.startbit⟩ : EbitmapNode L)]) dst = dst ++ l := by
    intro l
    induction l with
    | nil => intro dst; exact (append_nil dst).symm
    | cons n l ih =>
      intro dst
      rw [foldl_cons, ih, append_assoc]
      rfl
  rw [ebitmapCpy, hfold]
  rfl

variable {l₁ l₂ : MlsLevel L}

lemma Represents.set (h : Represents e A) (hbit : bit < 2 ^ 31) (value : Bool) :
    ∃ e', ebitmapSetBit e bit value = some e'
      ∧ Represents e' (if value then insert bit A else A.erase bit) := by
  obtain ⟨l', hset, hok, hbits⟩ := setBitLoop_spec hbit value e.node none h.nodes
  rw [← h.highbit] at hset
  refine ⟨⟨l', lastStop none l'⟩, ?_, hok, rfl, fun b => ?_⟩
  · rw [ebitmapSetBit, hset]
    rfl
  · rw [hbits b, h.has]
    cases value
    · simp [and_comm]
    · simp

lemma Built.represents (h : Built e A) : Represents e A := by
  induction h with
  | init => exact ⟨⟨List.Pairwise.nil, forall_mem_nil _⟩, rfl, fun b => by simp [Has, ebitmapInit]⟩
  | set bit value _ hbit hset ih =>
    obtain ⟨e', hset', hrep⟩ := ih.set hbit value
    obtain rfl := Option.some.inj (hset'.symm.trans hset)
    exact hrep
  | cpy _ ih =>
    rw [ebitmapCpy_eq]
    exact ih

lemma Represents.getBit (h : Represents e A) (hbit : bit < 2 ^ L.bits) :
    ebitmapGetBit e bit = some (decide (bit ∈ A)) := by
  rw [ebitmapGetBit]
  split_ifs with hhigh
  · have hno : bit ∉ A := by
      rw [← h.has]
      rintro ⟨n, hn, hb⟩
      have h1 := h.nodes.end_le_lastStop none n hn
      rw [h.highbit] at hhigh
      have h2 := hb.lt
      omega
    rw [decide_eq_false hno]
  · obtain ⟨v, hv, hiff⟩ := getBit_loop hbit h.nodes
    rw [hv, Option.some.injEq, Bool.eq_iff_iff, hiff, h.has, decide_eq_true_eq]

lemma Represents.cmp (h₁ : Represents e₁ A₁) (h₂ : Represents e₂ A₂) :
    ebitmapCmp e₁ e₂ = decide (A₁ = A₂) := by
  have hiff : ebitmapCmp e₁ e₂ = true ↔ e₁.node = e₂.node := by
    rw [ebitmapCmp]
    split_ifs with hhigh
    · refine iff_of_false id fun heq => hhigh ?_
      rw [h₁.highbit, h₂.highbit, heq]
    · exact cmp_loop _ _
  rw [Bool.eq_iff_iff, hiff, decide_eq_true_eq]
  constructor
  · intro heq
    ext b
    rw [← h₁.has, ← h₂.has, heq]
  · intro heq
    refine h₁.nodes.ext h₂.nodes fun b => ?_
    rw [h₁.has, h₂.has, heq]

lemma Represents.contains (h₁ : Represents e₁ A₁) (h₂ : Represents e₂ A₂) :
    ebitmapContains e₁ e₂ = decide (A₂ ⊆ A₁) := by
  have hsub : (∀ b, Has e₂.node b → Has e₁.node b) ↔ A₂ ⊆ A₁ :=
    forall_congr' fun b => by rw [h₁.has, h₂.has]
  rw [Bool.eq_iff_iff, decide_eq_true_eq, ← hsub, ebitmapContains]
  split_ifs with hhigh
  · -- the last node of the second one is behind all nodes of the first
    refine iff_of_false id fun h => ?_
    rw [h₁.highbit, h₂.highbit] at hhigh
    cases hlast : e₂.node.getLast? with
    | none =>
      rw [lastStop, lastStop, hlast] at hhigh
      exact absurd hhigh (Nat.not_lt_zero _)
    | some n =>
      have hn := List.mem_of_mem_getLast? hlast
      have hok := h₂.nodes.nodes n hn
      obtain ⟨b, hb⟩ := hok.nonempty
      obtain ⟨m, hm, hb'⟩ := h b ⟨n, hn, hb⟩
      have hend := h₁.nodes.end_le_lastStop none m hm
      have hstart : m.startbit = n.startbit := by
        rw [(h₁.nodes.nodes m hm).startbit_eq hb', hok.startbit_eq hb]
      have hstop : lastStop none e₂.node = n.startbit + ebitmapSize L := by
        rw [lastStop, hlast]
        exact hok.stop_eq
      omega
  · exact contains_loop h₁.nodes h₂.nodes

def MlsLevel.Built (l : MlsLevel L) : Prop := ∃ A, Selinux.Built l.cat A

lemma mlsLevelDom_iff (h₁ : Represents l₁.cat A₁)
    (h₂ : Represents l₂.cat A₂) : mlsLevelDom l₁ l₂ = true ↔ l₂.sens ≤ l₁.sens ∧ A₂ ⊆ A₁ := by
  rw [mlsLevelDom, h₁.contains h₂, Bool.and_eq_true, decide_eq_true_eq, decide_eq_true_eq]

lemma mlsLevelEq_iff (h₁ : Represents l₁.cat A₁)
    (h₂ : Represents l₂.cat A₂) : mlsLevelEq l₁ l₂ = true ↔ l₁.sens = l₂.sens ∧ A₁ = A₂ := by
  rw [mlsLevelEq, h₁.cmp h₂, Bool.and_eq_true, decide_eq_true_eq, decide_eq_true_eq]

/-- A bitmap that calls have built is a finite set: `ebitmap_get_bit` is membership, `ebitmap_cmp`
equality, `ebitmap_contains` inclusion, and no call runs into a `BUG_ON`. So `mls_level_dom` is a
partial order, with `mls_level_eq` as its equality. -/
theorem ebitmap_represents_set :
    (∀ (e : Ebitmap L) A, Built e A →
      (∀ bit, bit < 2 ^ L.bits → ebitmapGetBit e bit = some (decide (bit ∈ A)))
        ∧ (∀ bit value, bit < 2 ^ 31 → (ebitmapSetBit e bit value).isSome = true)
        ∧ e.node.Pairwise (fun n n' => n.startbit < n'.startbit)
        ∧ (∀ n ∈ e.node, ebitmapSize L ∣ n.startbit ∧ ∃ i, i < ebitmapSize L ∧ n.test i = true)
        ∧ e.highbit = ((e.node.getLast?).map fun n => n.startbit + ebitmapSize L).getD 0)
      ∧ (∀ (e₁ e₂ : Ebitmap L) A₁ A₂, Built e₁ A₁ → Built e₂ A₂ →
        ebitmapCmp e₁ e₂ = decide (A₁ = A₂) ∧ ebitmapContains e₁ e₂ = decide (A₂ ⊆ A₁))
      ∧ (∀ l : MlsLevel L, l.Built → mlsLevelDom l l = true)
      ∧ (∀ l₁ l₂ : MlsLevel L, l₁.Built → l₂.Built → mlsLevelDom l₁ l₂ = true →
        mlsLevelDom l₂ l₁ = true → mlsLevelEq l₁ l₂ = true)
      ∧ ∀ l₁ l₂ l₃ : MlsLevel L, l₁.Built → l₂.Built → l₃.Built → mlsLevelDom l₁ l₂ = true →
        mlsLevelDom l₂ l₃ = true → mlsLevelDom l₁ l₃ = true := by
  refine ⟨fun e A h => ?_, fun e₁ e₂ A₁ A₂ h₁ h₂ => ?_, ?_, ?_, ?_⟩
  · have hrep := h.represents
    refine ⟨fun bit hbit => hrep.getBit hbit, fun bit value hbit => ?_, hrep.nodes.sorted,
      fun n hn => ?_, ?_⟩
    · obtain ⟨e', hset, -⟩ := hrep.set hbit value
      rw [hset]
      rfl
    · have hok := hrep.nodes.nodes n hn
      obtain ⟨b, hb⟩ := hok.nonempty
      have h1 := hb.ge
      have h2 := hb.lt
      exact ⟨hok.aligned, b - n.startbit, by omega, hb.test⟩
    · rw [hrep.highbit, lastStop, Option.or_none]
      cases hlast : e.node.getLast? with
      | none => rfl
      | some n => exact (hrep.nodes.nodes n (List.mem_of_mem_getLast? hlast)).stop_eq
  · exact ⟨h₁.represents.cmp h₂.represents, h₁.represents.contains h₂.represents⟩
  · rintro l ⟨A, h⟩
    exact (mlsLevelDom_iff h.represents h.represents).mpr ⟨le_rfl, Finset.Subset.refl A⟩
  · rintro l₁ l₂ ⟨A₁, h₁⟩ ⟨A₂, h₂⟩ h h'
    obtain ⟨hs, hA⟩ := (mlsLevelDom_iff h₁.represents h₂.represents).mp h
    obtain ⟨hs', hA'⟩ := (mlsLevelDom_iff h₂.represents h₁.represents).mp h'
    exact (mlsLevelEq_iff h₁.represents h₂.represents).mpr
      ⟨le_antisymm hs' hs, Finset.Subset.antisymm hA' hA⟩
  · rintro l₁ l₂ l₃ ⟨A₁, h₁⟩ ⟨A₂, h₂⟩ ⟨A₃, h₃⟩ h h'
    obtain ⟨hs, hA⟩ := (mlsLevelDom_iff h₁.represents h₂.represents).mp h
    obtain ⟨hs', hA'⟩ := (mlsLevelDom_iff h₂.represents h₃.represents).mp h'
    exact (mlsLevelDom_iff h₁.represents h₃.represents).mpr ⟨hs'.trans hs, hA'.trans hA⟩

lemma Built.next (bit : ℕ) (value : Bool) (h : Built e A) (hbit : bit < 2 ^ 31)
    (hs : (ebitmapSetBit e bit value).isSome = true) :
    Built ((ebitmapSetBit e bit value).get hs) (if value then insert bit A else A.erase bit) :=
  h.set bit value hbit (Option.some_get hs).symm

theorem ebitmap_represents_set_two :
    ∃ e : Ebitmap .long64, Built e (Finset.erase (insert 3 (insert 200 ∅)) 200) ∧ e.highbit = 128
      ∧ ebitmapGetBit e 3 = some true ∧ ebitmapGetBit e 200 = some false := by
  have h1 := (Built.init (L := .long64)).next 200 true (by decide) (by decide +kernel)
  have h2 := h1.next 3 true (by decide) (by decide +kernel)
  have h3 := h2.next 200 false (by decide) (by decide +kernel)
  have hget := (ebitmap_represents_set.1 _ _ h3).1
  exact ⟨_, h3, by decide +kernel, hget 3 (by decide), hget 200 (by decide)⟩

lemma mlsLevelDom_trans {l₃ : MlsLevel L} (h₁ : l₁.Built) (h₂ : l₂.Built) (h₃ : l₃.Built)
    (h : mlsLevelDom l₁ l₂ = true) (h' : mlsLevelDom l₂ l₃ = true) : mlsLevelDom l₁ l₃ = true := by
  obtain ⟨A₁, h₁⟩ := h₁
  obtain ⟨A₂, h₂⟩ := h₂
  obtain ⟨A₃, h₃⟩ := h₃
  rw [mlsLevelDom_iff h₁.represents h₂.represents] at h
  rw [mlsLevelDom_iff h₂.represents h₃.represents] at h'
  rw [mlsLevelDom_iff h₁.represents h₃.represents]
  exact ⟨h'.1.trans h.1, h'.2.trans h.2⟩

end LinuxKernel.Selinux
