import LinuxKernel.Proofs.BitmapList

/-!
# What a list text that is accepted means

A pass of `bitmap_parselist` reads one item of the text. Its numbers are read modulo `2 ^ 32`, and
the text ends at a newline; for texts with smaller numbers the bitmap is what the items name.
-/

namespace LinuxKernel.Lib

open List

variable {L : LongSize} {item rest bp₀ : List UInt8} {nmaskbits : ℕ}

def IsNumeral (s : List UInt8) : Prop := s ≠ [] ∧ ∀ c ∈ s, isdigit c = true

instance (s : List UInt8) : Decidable (IsNumeral s) := by
  unfold IsNumeral
  infer_instance

/-- The first and the last number of an item: a numeral, or two with a hyphen between them. -/
def itemRange (item : List UInt8) : Option (ℕ × ℕ) :=
  let s := item.takeWhile (· != 45)
  if IsNumeral s then
    match item.dropWhile (· != 45) with
    | [] => some (decimal s, decimal s)
    | _ :: t => if IsNumeral t then some (decimal s, decimal t) else none
  else none

def textLine (bp : List UInt8) : List UInt8 := bp.takeWhile fun c => c != 0 && c != 10

def listItems (bp : List UInt8) : List (List UInt8) := (textLine bp).splitOnP (· == 44)

def Named (items : List (List UInt8)) (n : ℕ) : Prop :=
  ∃ item ∈ items, ∃ r ∈ itemRange item, r.1 ≤ n ∧ n ≤ r.2

lemma named_append {items items' : List (List UInt8)} {n : ℕ} :
    Named (items ++ items') n ↔ Named items n ∨ Named items' n := by
  simp only [Named, mem_append, or_and_right, exists_or]

lemma named_singleton {n : ℕ} {r : ℕ × ℕ} (h : itemRange item = some r) :
    Named [item] n ↔ r.1 ≤ n ∧ n ≤ r.2 := by
  constructor
  · rintro ⟨_, hmem, r', hr', hn⟩
    rw [mem_singleton.mp hmem, h] at hr'
    rwa [Option.some.inj hr']
  · exact fun hn => ⟨item, mem_singleton_self item, r, h, hn⟩

lemma isdigit_ne {c d : UInt8} (h : isdigit c = true) (hd : isdigit d = false) : c ≠ d := by
  rintro rfl
  rw [h] at hd
  exact Bool.noConfusion hd

lemma itemRange_numeral {s : List UInt8} (hs : IsNumeral s) :
    itemRange s = some (decimal s, decimal s) := by
  have hno : ∀ c ∈ s, (c != 45) = true := fun c hc =>
    bne_iff_ne.mpr (isdigit_ne (hs.2 c hc) (by decide))
  rw [itemRange, takeWhile_eq_self_iff.mpr hno, dropWhile_eq_nil_iff.mpr hno]
  simp only [if_pos hs]

lemma itemRange_range {s t : List UInt8} (hs : IsNumeral s) (ht : IsNumeral t) :
    itemRange (s ++ 45 :: t) = some (decimal s, decimal t) := by
  have hno : ∀ c ∈ s, (c != 45) = true := fun c hc =>
    bne_iff_ne.mpr (isdigit_ne (hs.2 c hc) (by decide))
  have htake : (s ++ 45 :: t).takeWhile (· != 45) = s := by
    rw [takeWhile_append_of_pos hno, takeWhile_cons_of_neg (by decide), append_nil]
  have hdrop : (s ++ 45 :: t).dropWhile (· != 45) = 45 :: t := by
    rw [dropWhile_append_of_pos hno, dropWhile_cons_of_neg (by decide)]
  rw [itemRange, htake, hdrop]
  simp only [if_pos hs, if_pos ht]

def ItemBytes (item : List UInt8) : Prop := ∀ c ∈ item, isdigit c = true ∨ c = 45

lemma ItemBytes.split (h : ItemBytes item) :
    (∀ c ∈ item, (c != 0 && c != 10) = true) ∧ ∀ c ∈ item, (c == 44) = false := by
  constructor
  · intro c hc
    rcases h c hc with hd | rfl
    · rw [Bool.and_eq_true, bne_iff_ne, bne_iff_ne]
      exact ⟨isdigit_ne hd (by decide), isdigit_ne hd (by decide)⟩
    · decide
  · intro c hc
    rcases h c hc with hd | rfl
    · rw [beq_eq_false_iff_ne]
      exact isdigit_ne hd (by decide)
    · decide

lemma listItems_comma (h : ItemBytes item) :
    listItems (item ++ 44 :: rest) = item :: listItems rest := by
  obtain ⟨h1, h2⟩ := h.split
  rw [listItems, textLine, takeWhile_append_of_pos h1, takeWhile_cons_of_pos (by decide),
    splitOnP_append_cons_of_forall_mem h2 _ (by decide)]
  rfl

lemma textLine_end (h : charAt rest = 0 ∨ charAt rest = 10) : textLine rest = [] := by
  cases rest with
  | nil => rfl
  | cons c rest =>
    have hc : c = 0 ∨ c = 10 := h
    rw [textLine, takeWhile_cons_of_neg]
    rcases hc with rfl | rfl <;> decide

lemma listItems_end (h : ItemBytes item) (hend : charAt rest = 0 ∨ charAt rest = 10) :
    listItems (item ++ rest) = [item] := by
  obtain ⟨h1, h2⟩ := h.split
  have hline := textLine_end hend
  rw [textLine] at hline
  rw [listItems, textLine, takeWhile_append_of_pos h1, hline, append_nil,
    splitOnP_eq_singleton h2]

lemma digits_span : ∀ bp : List UInt8, ∃ ds tail, bp = ds ++ tail ∧
    (∀ c ∈ ds, isdigit c = true) ∧ isdigit (charAt tail) = false
  | [] => ⟨[], [], rfl, by simp, by decide⟩
  | c :: bp => by
    cases hc : isdigit c with
    | false => exact ⟨[], c :: bp, rfl, by simp, hc⟩
    | true =>
      obtain ⟨ds, tail, rfl, hds, htail⟩ := digits_span bp
      refine ⟨c :: ds, tail, rfl, fun e he => ?_, htail⟩
      rcases mem_cons.mp he with rfl | he
      · exact hc
      · exact hds e he

lemma numeral_span {bp : List UInt8} (h : isdigit (charAt bp) = true) : ∃ ds tail,
    bp = ds ++ tail ∧ IsNumeral ds ∧ isdigit (charAt tail) = false := by
  obtain ⟨ds, tail, rfl, hds, htail⟩ := digits_span bp
  refine ⟨ds, tail, rfl, ⟨?_, hds⟩, htail⟩
  rintro rfl
  rw [nil_append, htail] at h
  exact Bool.noConfusion h

lemma parselist_item {bp : List UInt8} (h : isdigit (charAt bp) = true) {b : ℕ}
    (hend : rangeEnd L (simpleStrtoul L bp 10).1 (simpleStrtoul L bp 10).2 = some (b, rest)) :
    ∃ item r, bp = item ++ rest ∧ item ≠ [] ∧ ItemBytes item ∧ itemRange item = some r ∧
      (simpleStrtoul L bp 10).1 = r.1 % 2 ^ 32 ∧ b = r.2 % 2 ^ 32 ∧
      isdigit (charAt rest) = false := by
  obtain ⟨ds, tail, rfl, hds, htail⟩ := numeral_span h
  rw [simpleStrtoul_span hds.2 htail] at hend ⊢
  simp only at hend ⊢
  rw [rangeEnd] at hend
  by_cases hhyphen : charAt tail = 45
  · obtain ⟨t, rfl⟩ : ∃ t, tail = 45 :: t := by
      cases tail with
      | nil => exact absurd hhyphen (by decide)
      | cons c t => exact ⟨t, by rw [show c = 45 from hhyphen]⟩
    rw [if_pos hhyphen, tail_cons] at hend
    split_ifs at hend with ht
    obtain ⟨ds', tail', rfl, hds', htail'⟩ := numeral_span ht
    rw [simpleStrtoul_span hds'.2 htail'] at hend
    obtain ⟨rfl, rfl⟩ := Prod.mk.inj (Option.some.inj hend)
    refine ⟨ds ++ 45 :: ds', _, by simp, by simp, ?_, itemRange_range hds hds', rfl, rfl, htail'⟩
    intro c hc
    rcases mem_append.mp hc with hc | hc
    · exact .inl (hds.2 c hc)
    · rcases mem_cons.mp hc with rfl | hc
      · exact .inr rfl
      · exact .inl (hds'.2 c hc)
  · rw [if_neg hhyphen] at hend
    obtain ⟨rfl, rfl⟩ := Prod.mk.inj (Option.some.inj hend)
    exact ⟨ds, _, rfl, hds.1, fun c hc => Or.inl (hds.2 c hc), itemRange_numeral hds, rfl, rfl,
      htail⟩

def HasNamed (nmaskbits : ℕ) (items : List (List UInt8)) (b : Bitmap L) : Prop :=
  ∀ n, (n < nmaskbits ∧ b.test n = true) ↔ Named items n

/-- Before a pass: the items read so far are set, unless the text goes on with no digit. -/
def ReadTo (bp₀ : List UInt8) (nmaskbits : ℕ) (s : List UInt8 × Bitmap L) : Prop :=
  isdigit (charAt s.1) = false ∨
    ∃ done, listItems bp₀ = done ++ listItems s.1 ∧ HasNamed nmaskbits done s.2

lemma HasNamed.setRange {items : List (List UInt8)} {b : Bitmap L}
    {r : ℕ × ℕ} (h : HasNamed nmaskbits items b) (hitem : itemRange item = some r)
    (hlt : r.2 < nmaskbits) :
    HasNamed nmaskbits (items ++ [item]) (setRange (r.2 + 1 - r.1) r.1 b) := by
  intro n
  rw [named_append, named_singleton hitem, ← h n, setRange_test, Bool.or_eq_true, decide_eq_true_eq]
  constructor
  · rintro ⟨hn, hr | hb⟩
    · exact .inr (by omega)
    · exact .inl ⟨hn, hb⟩
  · rintro (⟨hn, hb⟩ | hr)
    · exact ⟨hn, .inr hb⟩
    · exact ⟨by omega, .inl (by omega)⟩

lemma parselistPass_read
    (hsmall : ∀ item ∈ listItems bp₀, ∀ r ∈ itemRange item, r.1 < 2 ^ 32 ∧ r.2 < 2 ^ 32)
    (s : List UInt8 × Bitmap L) (hs : ReadTo bp₀ nmaskbits s) :
    (parselistPass nmaskbits s).Next (ReadTo bp₀ nmaskbits)
      (fun r => r.1 = 0 → HasNamed nmaskbits (listItems bp₀) r.2)
      (fun s => s.1.length) s.1.length := by
  obtain ⟨bp, maskp⟩ := s
  have hfail : ∀ {e : ℤ}, e ≠ 0 → (Pass.leave (e, maskp) : Pass (List UInt8 × Bitmap L) _).Next
      (ReadTo bp₀ nmaskbits) (fun r => r.1 = 0 → HasNamed nmaskbits (listItems bp₀) r.2)
      (fun s => s.1.length) bp.length := fun he h0 => absurd h0 he
  rw [parselistPass]
  simp only
  by_cases hdigit : isdigit (charAt bp) = true
  swap
  · rw [if_pos hdigit]
    exact hfail (by decide)
  rw [if_neg (not_not.mpr hdigit)]
  cases hend : rangeEnd L (simpleStrtoul L bp 10).1 (simpleStrtoul L bp 10).2 with
  | none => exact hfail (by decide)
  | some e =>
    obtain ⟨b, rest⟩ := e
    obtain ⟨item, r, rfl, hne, hbytes, hitem, ha, hb, hrest⟩ := parselist_item hdigit hend
    obtain ⟨done, hdone, hnamed⟩ := hs.resolve_left fun hf => by
      rw [hdigit] at hf
      exact Bool.noConfusion hf
    simp only at hdone hnamed ⊢
    have hlen : 0 < item.length := length_pos_iff.mpr hne
    by_cases hle : (simpleStrtoul L (item ++ rest) 10).1 ≤ b
    swap
    · rw [if_pos hle]
      exact hfail (by decide)
    rw [if_neg (not_not.mpr hle)]
    by_cases hbits : nmaskbits ≤ b
    · rw [if_pos hbits]
      exact hfail (by decide)
    rw [if_neg hbits, ha, hb]
    rw [hb] at hbits
    -- once the item is known to be one of the text, its numbers were read as they are
    have hset : item ∈ listItems bp₀ → HasNamed nmaskbits (done ++ [item])
        (setRange (r.2 % 2 ^ 32 + 1 - r.1 % 2 ^ 32) (r.1 % 2 ^ 32) maskp) := by
      intro hmem
      obtain ⟨h1, h2⟩ := hsmall item hmem r hitem
      rw [Nat.mod_eq_of_lt h2] at hbits
      rw [Nat.mod_eq_of_lt h1, Nat.mod_eq_of_lt h2]
      exact hnamed.setRange hitem (by omega)
    generalize setRange (r.2 % 2 ^ 32 + 1 - r.1 % 2 ^ 32) (r.1 % 2 ^ 32) maskp = maskp' at hset
    by_cases hcomma : charAt rest = 44
    · obtain ⟨t, rfl⟩ : ∃ t, rest = 44 :: t := by
        cases rest with
        | nil => exact absurd hcomma (by decide)
        | cons c t => exact ⟨t, by rw [show c = 44 from hcomma]⟩
      rw [listItems_comma hbytes] at hdone
      have hset := hset (by rw [hdone]; simp)
      rw [if_pos hcomma, tail_cons]
      split_ifs with hmore
      · refine ⟨.inr ⟨done ++ [item], by rw [hdone]; simp, hset⟩, ?_⟩
        simp only [length_append, length_cons]
        omega
      intro _ n
      rw [not_and_or, not_not, not_not] at hmore
      have hline : textLine t = [] := textLine_end hmore
      have hlast : listItems t = [[]] := by
        rw [listItems, hline]
        rfl
      have hnil : ¬ Named [[]] n := by
        rintro ⟨_, hmem, r, hr, -⟩
        rw [mem_singleton.mp hmem] at hr
        exact absurd hr (by simp [itemRange, IsNumeral])
      have happ : listItems bp₀ = (done ++ [item]) ++ [[]] := by
        rw [hdone, hlast]
        simp
      rw [happ, named_append, or_iff_left hnil]
      exact hset n
    · rw [if_neg hcomma]
      split_ifs with hmore
      · refine ⟨.inl hrest, ?_⟩
        simp only [length_append]
        omega
      intro _
      rw [not_and_or, not_not, not_not] at hmore
      rw [listItems_end hbytes hmore] at hdone
      rw [hdone]
      exact hset (by rw [hdone]; simp)

end LinuxKernel.Lib
