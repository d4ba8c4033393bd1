import LinuxKernel.Proofs.Ebitmap

/-!
# The bitmaps that `ebitmap_read` accepts

The nodes that are read ascend and are aligned. They have the bits of the entries if no two have one
`startbit`: the second would take the place of the first. An entry without a bit may leave a node
without one, and `highbit` is taken from the stream.
-/

namespace LinuxKernel.Selinux

open List

variable {L : LongSize}

structure EbitmapEntry where
  startbit : ℕ
  map : BitVec 64

def EbitmapEntry.Has (x : EbitmapEntry) (bit : ℕ) : Prop :=
  x.startbit ≤ bit ∧ x.map.getLsbD (bit - x.startbit) = true

def streamEntries : ℕ → List UInt8 → List EbitmapEntry
  | 0, _ => []
  | count + 1, fp =>
    ⟨leToCpu (fp.take 4), BitVec.ofNat 64 (leToCpu ((fp.drop 4).take 8))⟩ ::
      streamEntries count ((fp.drop 4).drop 8)

def streamHighbit (L : LongSize) (fp : List UInt8) : ℕ :=
  roundHighbit L (leToCpu (((fp.take 12).drop 4).take 4))

def entriesOf (L : LongSize) (fp : List UInt8) : List EbitmapEntry :=
  if streamHighbit L fp = 0 then []
  else streamEntries (leToCpu ((fp.take 12).drop 8)) (fp.drop 12)

/-- The node of an entry starts here. -/
def EbitmapEntry.nodeStart (L : LongSize) (x : EbitmapEntry) : ℕ :=
  x.startbit - x.startbit % ebitmapSize L

structure Canonical (e : Ebitmap L) : Prop where
  sorted : e.node.Pairwise fun n n' => n.startbit < n'.startbit
  aligned : ∀ n ∈ e.node, ebitmapSize L ∣ n.startbit
  nonempty : ∀ n ∈ e.node, ∃ bit, n.Has bit
  highbit : e.highbit = (e.node.getLast?.map fun n => n.startbit + ebitmapSize L).getD 0

lemma nextEntry_eq {fp buf rest : List UInt8} {bytes : ℕ}
    (h : nextEntry fp bytes = some (buf, rest)) : buf = fp.take bytes ∧ rest = fp.drop bytes := by
  rw [nextEntry] at h
  split_ifs at h
  cases h
  exact ⟨rfl, rfl⟩

variable {n n' : EbitmapNode L} {x : EbitmapEntry}

lemma EbitmapEntry.Has.lt {bit : ℕ} (h : x.Has bit) : bit < x.startbit + 64 := by
  have h2 := BitVec.lt_of_getLsbD h.2
  omega

lemma storeMap_test : ∀ (k : ℕ) {n n' : EbitmapNode L} {index : ℕ} {map : BitVec 64},
    storeMap k n index map = some n' → map.toNat < 2 ^ (k * L.bits) →
    (∀ i, index * L.bits ≤ i → i < (index + k) * L.bits → n.test i = false) →
    n'.startbit = n.startbit ∧ ∀ i, n'.test i =
      (n.test i || (decide (index * L.bits ≤ i) && map.getLsbD (i - index * L.bits)))
  | 0, n, n', index, map, h, hlt, _ => by
    obtain rfl : map = 0 := BitVec.eq_of_toNat_eq (by simpa using hlt)
    cases h
    simp
  | k + 1, n, n', index, map, h, hlt, hfree => by
    have hb := L.bits_pos
    rw [storeMap] at h
    split_ifs at h with h0 hidx
    · cases h
      simp [h0]
    have hsucc : (index + 1) * L.bits = index * L.bits + L.bits := Nat.succ_mul _ _
    have hdiv : ∀ i, i / L.bits = index ↔ index * L.bits ≤ i ∧ i < (index + 1) * L.bits :=
      fun i => by rw [Nat.div_eq_iff hb, hsucc]; omega
    obtain ⟨hs, ht⟩ := storeMap_test k h (by
        rw [BitVec.toNat_ushiftRight, Nat.shiftRight_eq_div_pow]
        refine Nat.div_lt_of_lt_mul ?_
        rwa [← pow_add, add_comm, ← Nat.succ_mul])
      fun i h1 h2 => by
        rw [test_update, if_neg (by rw [hdiv]; omega)]
        exact hfree i (by omega) (by rwa [add_assoc, add_comm 1] at h2)
    refine ⟨hs, fun i => ?_⟩
    rw [ht i, test_update]
    by_cases hi : i / L.bits = index
    · -- in the word that is written
      obtain ⟨h1, h2⟩ := (hdiv i).mp hi
      have hmod : i % L.bits = i - index * L.bits := by rw [← hi, mul_comm, Nat.mod_eq_sub]
      rw [if_pos hi, hfree i h1 (h2.trans_le (Nat.mul_le_mul_right _ (by omega))),
        BitVec.getLsbD_setWidth, decide_eq_true (Nat.mod_lt i hb), hmod, decide_eq_true h1,
        decide_eq_false (by omega)]
      simp
    · rw [if_neg hi, BitVec.getLsbD_ushiftRight]
      rw [hdiv] at hi
      by_cases h1 : (index + 1) * L.bits ≤ i
      · rw [decide_eq_true h1, decide_eq_true (by omega),
          show L.bits + (i - (index + 1) * L.bits) = i - index * L.bits by omega]
      · rw [decide_eq_false h1, decide_eq_false (by omega)]
        simp

lemma sixtyFour_dvd_size (L : LongSize) : 64 ∣ ebitmapSize L := by cases L <;> decide

lemma storeMap_has (hge : n.startbit ≤ x.startbit) (hunit : 64 ∣ x.startbit - n.startbit)
    (hend : x.startbit + 64 ≤ n.startbit + ebitmapSize L)
    (h : storeMap (64 / L.bits) n ((x.startbit - n.startbit) / L.bits) x.map = some n')
    (hfree : ∀ bit, x.startbit ≤ bit → bit < x.startbit + 64 → ¬ n.Has bit) :
    n'.startbit = n.startbit ∧ ∀ bit, n'.Has bit ↔ n.Has bit ∨ x.Has bit := by
  have hwords : 64 / L.bits * L.bits = 64 := by cases L <;> rfl
  have hindex : (x.startbit - n.startbit) / L.bits * L.bits = x.startbit - n.startbit :=
    Nat.div_mul_cancel ((Dvd.intro_left _ hwords).trans hunit)
  obtain ⟨hs, ht⟩ := storeMap_test _ h (by rw [hwords]; exact x.map.isLt) fun i h1 h2 => by
    rw [add_mul, hwords, hindex] at h2
    rw [hindex] at h1
    refine Bool.eq_false_iff.mpr fun htest => hfree (n.startbit + i) (by omega) (by omega) ?_
    exact ⟨by omega, by omega, by rwa [Nat.add_sub_cancel_left]⟩
  rw [hindex] at ht
  refine ⟨hs, fun bit => ⟨fun hb => ?_, ?_⟩⟩
  · obtain ⟨h1, h2, h3⟩ := hb
    rw [hs] at h1 h2 h3
    rw [ht, Bool.or_eq_true, Bool.and_eq_true, decide_eq_true_eq] at h3
    rcases h3 with h3 | ⟨h3, h4⟩
    · exact .inl ⟨h1, h2, h3⟩
    · refine .inr ⟨by omega, ?_⟩
      rwa [show bit - n.startbit - (x.startbit - n.startbit) = bit - x.startbit by omega] at h4
  · rintro (hb | hb)
    · exact ⟨hs ▸ hb.ge, hs ▸ hb.lt, by rw [hs, ht, hb.test, Bool.true_or]⟩
    · have h1 := hb.1
      have h2 := hb.lt
      refine ⟨by omega, by omega, ?_⟩
      rw [hs, ht, decide_eq_true (by omega), show bit - n.startbit - (x.startbit - n.startbit) =
        bit - x.startbit by omega, hb.2]
      simp

variable {highbit : ℕ} {es : List EbitmapEntry} {l l' : List (EbitmapNode L)}

/-- After the entries `es`, with the last node first. -/
structure Reading (highbit : ℕ) (es : List EbitmapEntry) (l : List (EbitmapNode L)) : Prop where
  sorted : l.Pairwise fun n n' => n'.startbit < n.startbit
  nodes : ∀ n ∈ l, (ebitmapSize L ∣ n.startbit ∧ n.startbit + ebitmapSize L ≤ highbit) ∧
    ∃ bit, n.Has bit
  has : ∀ bit, Has l bit ↔ ∃ x ∈ es, x.Has bit
  units : ∀ x ∈ es, 64 ∣ x.startbit
  last : es.getLast?.map (EbitmapEntry.nodeStart L) = l.head?.map EbitmapNode.startbit

lemma not_has_zero (start bit : ℕ) : ¬ (⟨fun _ => 0, start⟩ : EbitmapNode L).Has bit :=
  fun h => Bool.false_ne_true ((test_zero _ _).symm.trans h.test)

lemma Reading.readNode (h : Reading highbit es l) (hlt : highbit < 2 ^ 32)
    (hnode : readNode x.startbit l = some (n :: l')) :
    n.startbit = x.nodeStart L ∧ (n :: l').Pairwise (fun n n' => n'.startbit < n.startbit) ∧
      l' ⊆ l ∧ ∀ bit, Has (n :: l') bit ↔ Has l bit := by
  cases l with
  | nil =>
    cases hnode
    exact ⟨rfl, pairwise_singleton _ _, fun _ hm => hm,
      fun bit => by rw [has_cons, or_iff_right (not_has_zero _ _)]⟩
  | cons m l =>
    obtain ⟨⟨halign, hle⟩, -⟩ := h.nodes m mem_cons_self
    have hbits := L.two_pow_bits_ge
    have hmod := Nat.mod_lt x.startbit (ebitmapSize_pos L)
    rw [Selinux.readNode, addMod_of_lt (by omega)] at hnode
    split_ifs at hnode with hnew hback
    · cases hnode
      have hbefore : m.startbit < x.startbit - x.startbit % ebitmapSize L := by omega
      refine ⟨rfl, pairwise_cons.mpr ⟨fun p hp => ?_, h.sorted⟩, fun _ hm => hm,
        fun bit => by rw [has_cons, or_iff_right (not_has_zero _ _)]⟩
      rcases mem_cons.mp hp with rfl | hp
      · exact hbefore
      · exact ((pairwise_cons.mp h.sorted).1 p hp).trans hbefore
    · cases hnode
      exact ⟨eq_of_aligned halign (by omega) (by omega), h.sorted,
        fun _ hm => mem_cons_of_mem _ hm, fun _ => Iff.rfl⟩

lemma Reading.step (h : Reading highbit es l) (hH : ebitmapSize L ∣ highbit)
    (hlt : highbit < 2 ^ 32) (hpos : highbit ≠ 0) (hunit : x.startbit % 64 = 0)
    (hle : x.startbit ≤ highbit - 64) (hnew : ∀ y ∈ es, y.startbit ≠ x.startbit) (hmap : x.map ≠ 0)
    (hnode : Selinux.readNode x.startbit l = some (n :: l'))
    (hstore : storeMap (64 / L.bits) n ((x.startbit - n.startbit) / L.bits) x.map = some n') :
    Reading highbit (es ++ [x]) (n' :: l') := by
  obtain ⟨hstart, hsorted, hsub, hhas⟩ := h.readNode hlt hnode
  have hsize := sixtyFour_dvd_size L
  have haligned : ebitmapSize L ∣ n.startbit := hstart ▸ Nat.dvd_sub_mod _
  have hmod := Nat.mod_lt x.startbit (ebitmapSize_pos L)
  rw [EbitmapEntry.nodeStart] at hstart
  have h64 := hsize.trans haligned
  have hfree : ∀ bit, x.startbit ≤ bit → bit < x.startbit + 64 → ¬ n.Has bit := by
    intro bit h1 h2 hb
    obtain ⟨y, hy, hyb⟩ := (h.has bit).mp ((hhas bit).mp (has_cons.mpr (.inl hb)))
    have h3 := hyb.1
    have h4 := hyb.lt
    have h5 := h.units y hy
    exact hnew y hy (by omega)
  obtain ⟨hs, hbits⟩ := storeMap_has (by omega) (by omega) (by omega) hstore hfree
  have hle' := add_size_le haligned hH (by omega)
  obtain ⟨hfirst, hrest⟩ := pairwise_cons.mp hsorted
  refine ⟨pairwise_cons.mpr ⟨fun m hm => hs ▸ hfirst m hm, hrest⟩, ?_, fun bit => ?_, ?_, ?_⟩
  · rw [forall_mem_cons, hs]
    refine ⟨⟨⟨haligned, hle'⟩, ?_⟩, fun m hm => h.nodes m (hsub hm)⟩
    obtain ⟨o, ho⟩ : ∃ o, x.map.getLsbD o = true := by
      by_contra hno
      exact hmap (BitVec.eq_of_getLsbD_eq fun o _ => by
        rw [Bool.eq_false_iff.mpr (not_exists.mp hno o)]
        simp)
    exact ⟨x.startbit + o, (hbits _).mpr (.inr ⟨Nat.le_add_right _ _, by
      rwa [Nat.add_sub_cancel_left]⟩)⟩
  · have hold := (hhas bit).trans (h.has bit)
    rw [has_cons] at hold ⊢
    rw [hbits, or_right_comm, hold]
    simp [or_and_right, exists_or]
  · simp only [mem_append, mem_singleton, or_imp, forall_and, forall_eq]
    exact ⟨h.units, Nat.dvd_of_mod_eq_zero hunit⟩
  · simp [hs, hstart, EbitmapEntry.nodeStart]

lemma readLoop_reading (hH : ebitmapSize L ∣ highbit) (hlt : highbit < 2 ^ 32)
    (hpos : highbit ≠ 0) : ∀ (count : ℕ) {es : List EbitmapEntry} {l l' : List (EbitmapNode L)}
      {fp : List UInt8}, Reading highbit es l → readLoop highbit count l fp = some l' →
      (es ++ streamEntries count fp).Pairwise (fun x y => x.startbit ≠ y.startbit) →
      (∀ x ∈ streamEntries count fp, x.map ≠ 0) → Reading highbit (es ++ streamEntries count fp) l'
  | 0, es, l, l', fp, h, hr, _, _ => by
    cases hr
    rwa [streamEntries, append_nil]
  | count + 1, es, l, l', fp, h, hr, hne, hmaps => by
    rw [readLoop] at hr
    obtain ⟨⟨buf, fp₁⟩, hbuf, hr⟩ := Option.bind_eq_some_iff.mp hr
    obtain ⟨rfl, rfl⟩ := nextEntry_eq hbuf
    simp only at hr
    split_ifs at hr with hbad
    obtain ⟨l₁, hnode, hr⟩ := Option.bind_eq_some_iff.mp hr
    obtain ⟨⟨buf, fp₁⟩, hbuf, hr⟩ := Option.bind_eq_some_iff.mp hr
    obtain ⟨rfl, rfl⟩ := nextEntry_eq hbuf
    cases l₁ with
    | nil => cases hr
    | cons n l₁ =>
      obtain ⟨n', hstore, hr⟩ := Option.bind_eq_some_iff.mp hr
      rw [streamEntries, append_cons] at hne ⊢
      rw [streamEntries, forall_mem_cons] at hmaps
      rw [not_or, not_not, not_lt] at hbad
      refine readLoop_reading hH hlt hpos count ?_ hr hne hmaps.2
      refine h.step hH hlt hpos hbad.1 hbad.2 (fun y hy => ?_) hmaps.1 hnode hstore
      exact (pairwise_append.mp (pairwise_append.mp hne).1).2.2 y hy _ (by simp)

def streamOf (highbit : UInt8) (entries : List (UInt8 × UInt8)) : List UInt8 :=
  [64, 0, 0, 0, highbit, 0, 0, 0, UInt8.ofNat entries.length, 0, 0, 0] ++
    entries.flatMap fun (startbit, map) => [startbit, 0, 0, 0, map, 0, 0, 0, 0, 0, 0, 0]

end LinuxKernel.Selinux
