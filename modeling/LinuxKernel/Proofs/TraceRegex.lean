import LinuxKernel.TraceRegex

/-!
# What the patterns of string fields match

The matchers at the end and in the middle of a string look at the whole length they are given, so
they are right only where the string fills it.
-/

namespace LinuxKernel.Trace

open List

variable {s p rest buff : List UInt8} {type : RegexType} {search : ℕ}

lemma strncmp_full : ∀ {n : ℕ} {s p : List UInt8}, s.length < n → 0 ∉ s → 0 ∉ p →
    (strncmp n (s ++ 0 :: rest) p = true ↔ s = p)
  | n + 1, [], [], _, _, _ => by simp [strncmp]
  | n + 1, [], b :: p, _, _, hp => by simp_all [strncmp]
  | n + 1, a :: s, [], _, hs, _ => by
    rw [mem_cons, not_or] at hs
    simp [strncmp, Ne.symm hs.1]
  | n + 1, a :: s, b :: p, h, hs, hp => by
    rw [mem_cons, not_or] at hs hp
    have ih := strncmp_full (Nat.lt_of_succ_lt_succ h) hs.2 hp.2
    simp [strncmp, ih, Ne.symm hs.1]

lemma take_eq_iff : ∀ {p s : List UInt8}, 0 ∉ p → ((s ++ 0 :: rest).take p.length = p ↔ p <+: s)
  | [], s, _ => by simp
  | b :: p, [], hp => by simp_all
  | b :: p, a :: s, hp => by
    rw [mem_cons, not_or] at hp
    rw [cons_append, length_cons, take_succ_cons, cons.injEq, cons_prefix_cons, take_eq_iff hp.2]
    exact and_congr_left' eq_comm

lemma strncmp_front : ∀ {p t : List UInt8}, 0 ∉ p →
    (strncmp p.length t p = true ↔ t.take p.length = p)
  | [], t, _ => by simp [strncmp]
  | b :: p, [], hp => by simp_all [strncmp]
  | b :: p, a :: t, hp => by
    rw [mem_cons, not_or] at hp
    have ih := strncmp_front (t := t) hp.2
    simp only [length_cons, strncmp, headD_cons, tail_cons, Bool.and_eq_true, beq_iff_eq, ih,
      Bool.or_eq_true, take_succ_cons, cons.injEq]
    refine and_congr_right fun he => or_iff_right fun h0 => ?_
    exact hp.1 (h0.symm.trans he)

lemma strnstr_iff (hp : p ≠ []) (hp0 : 0 ∉ p) : ∀ {s : List UInt8},
    strnstr p (s.length + 1) (s ++ 0 :: rest) = true ↔ p <:+: s
  | [] => by
    have htake := @take_eq_iff rest p [] hp0
    simp_all [strnstr]
  | a :: s => by
    have ih := strnstr_iff hp hp0 (s := s)
    have htake := @take_eq_iff rest p (a :: s) hp0
    rw [length_cons, strnstr, infix_cons_iff]
    split_ifs with hle
    · rw [Bool.or_eq_true, beq_iff_eq, htake]
      exact or_congr_right ih
    · refine iff_of_false not_false fun h => ?_
      rcases h with h | h
      · exact hle (h.length_le.trans (by simp))
      · exact hle (h.length_le.trans (by omega))

lemma end_iff : (decide (p.length ≤ s.length)
    && ((s ++ 0 :: rest).drop (s.length - p.length)).take p.length == p) = true ↔ p <:+ s := by
  have hdrop : p.length ≤ s.length →
      ((s ++ 0 :: rest).drop (s.length - p.length)).take p.length = s.drop (s.length - p.length) := by
    intro hle
    have hlen : (s.drop (s.length - p.length)).length = p.length := by
      rw [length_drop]
      omega
    rw [drop_append_of_le_length (Nat.sub_le _ _), take_append_of_le_length hlen.ge,
      take_of_length_le hlen.le]
  rw [Bool.and_eq_true, decide_eq_true_eq, beq_iff_eq]
  constructor
  · rintro ⟨hle, h⟩
    rw [hdrop hle] at h
    exact h ▸ drop_suffix _ _
  · intro h
    rw [hdrop h.length_le, ← suffix_iff_eq_drop.mp h]
    exact ⟨h.length_le, rfl⟩

lemma parseRegexLoop_skip (m : ℕ) : ∀ {n i : ℕ},
    (∀ j, i ≤ j → j < i + n → buff.getD j 0 ≠ 42) →
    parseRegexLoop buff (n + m) i type search = parseRegexLoop buff m (i + n) type search
  | 0, i, _ => by rw [zero_add, add_zero]
  | n + 1, i, h => by
    rw [Nat.add_right_comm, parseRegexLoop, if_neg (h i le_rfl (by omega)),
      parseRegexLoop_skip m fun j h1 h2 => h j (by omega) (by omega), add_assoc, add_comm 1]

lemma parseRegexLoop_pass (hstar : 42 ∉ p) (pre post : List UInt8) (m : ℕ) :
    parseRegexLoop (pre ++ (p ++ post)) (p.length + m) pre.length type search
      = parseRegexLoop (pre ++ (p ++ post)) m (pre.length + p.length) type search := by
  refine parseRegexLoop_skip m fun j h1 h2 => ?_
  have hj : j - pre.length < p.length := by omega
  rw [getD_append_right _ _ _ _ h1, getD_append _ _ _ _ hj, getD_eq_getElem _ _ hj]
  exact fun he => hstar (he ▸ getElem_mem hj)

/-- The star behind the pattern is replaced by the NUL. -/
lemma parseRegexLoop_star (hstar : 42 ∉ p) (hp : p ≠ []) (pre : List UInt8) :
    parseRegexLoop (pre ++ (p ++ [42])) (p.length + 1) pre.length type search
      = (if type = .endOnly then .middleOnly else .frontOnly, search, pre ++ (p ++ [0])) := by
  have hpos := length_pos_iff.mpr hp
  rw [parseRegexLoop_pass hstar, parseRegexLoop, if_pos (by simp), if_neg (by omega)]
  simp

lemma filterBuildRegex_of {pattern : List UInt8} (hneg : (pattern.headD 0 == 33) = false)
    (h : parseRegexLoop pattern pattern.length 0 .full 0 = (type, search, buff)) :
    filterBuildRegex pattern = (type, (buff.drop search).takeWhile (· != 0), false) := by
  simp only [filterBuildRegex, hneg, Bool.false_eq_true, if_false, h]

lemma filterBuildRegex_eq (hp : p ≠ []) (hp0 : 0 ∉ p) (hstar : 42 ∉ p) (hneg : 33 ∉ p) :
    filterBuildRegex p = (.full, p, false) ∧ filterBuildRegex (p ++ [42]) = (.frontOnly, p, false)
      ∧ filterBuildRegex (42 :: p) = (.endOnly, p, false)
      ∧ filterBuildRegex (42 :: (p ++ [42])) = (.middleOnly, p, false) := by
  have hhead : ∀ t, ((p ++ t).headD 0 == 33) = false := by
    obtain ⟨a, q, rfl⟩ := exists_cons_of_ne_nil hp
    exact fun _ => beq_eq_false_iff_ne.mpr fun he => hneg (he ▸ mem_cons_self)
  have htake : p.takeWhile (· != 0) = p ∧ (p ++ [0]).takeWhile (· != 0) = p := by
    have hpos : ∀ x ∈ p, (x != 0) = true := fun x hx => bne_iff_ne.mpr fun he => hp0 (he ▸ hx)
    rw [takeWhile_append_of_pos hpos]
    exact ⟨takeWhile_eq_self_iff.mpr hpos, append_nil p⟩
  have hfull := @parseRegexLoop_pass p .full 0 hstar [] [] 0
  have hend := @parseRegexLoop_pass p .endOnly 1 hstar [42] [] 0
  have hfront := @parseRegexLoop_star p .full 0 hstar hp []
  have hmiddle := @parseRegexLoop_star p .endOnly 1 hstar hp [42]
  rw [append_nil] at hfull hend
  rw [show p.length + 1 = (p ++ [42]).length by simp] at hfront hmiddle
  refine ⟨(filterBuildRegex_of (append_nil p ▸ hhead []) hfull).trans ?_,
    (filterBuildRegex_of (hhead [42]) hfront).trans ?_, (filterBuildRegex_of rfl hend).trans ?_,
    (filterBuildRegex_of rfl hmiddle).trans ?_⟩ <;> simp [htake]

lemma StringField.len_spec {field : StringField} (hfield : field.bytes = s ++ 0 :: rest)
    (hs : 0 ∉ s) : s.length < field.len
      ∧ (rest = [] ∨ (∃ bytes, field = .pointer bytes) → field.len = s.length + 1) := by
  cases field with
  | pointer bytes =>
    obtain rfl : bytes = _ := hfield
    have hpos : ∀ x ∈ s, (x != 0) = true := fun x hx => bne_iff_ne.mpr fun he => hs (he ▸ hx)
    simp [StringField.len, takeWhile_append_of_pos hpos]
  | _ bytes =>
    obtain rfl : bytes = _ := hfield
    simp [StringField.len]

end LinuxKernel.Trace
