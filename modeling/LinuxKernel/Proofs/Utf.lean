import LinuxKernel.Utf

/-!
# Conversion between UTF-8 and UTF-16 loses nothing

A well-formed string is the encoding of a list of characters without the zero character. Both loops
are followed character by character.
-/

namespace LinuxKernel.Nls

open List Nat

def utf16EncodeChar (c : Char) : List UInt16 :=
  if c.toNat < 0x10000 then [UInt16.ofNat c.toNat]
  else [UInt16.ofNat (0xd800 + (c.toNat - 0x10000) / 0x400),
    UInt16.ofNat (0xdc00 + (c.toNat - 0x10000) % 0x400)]

/-- `s` is well-formed UTF-8 without a zero byte. -/
def WellFormedUtf8 (s : List UInt8) : Prop :=
  ∃ cs : List Char, (∀ c ∈ cs, c ≠ '\x00') ∧ s = cs.flatMap String.utf8EncodeChar

def WellFormedUtf16 (w : List UInt16) : Prop :=
  ∃ cs : List Char, (∀ c ∈ cs, c ≠ '\x00') ∧ w = cs.flatMap utf16EncodeChar

lemma and_surrogateMask {l : ℕ} (h : l < 2 ^ 32) :
    l &&& surrogateMask = l / 2 ^ 11 * 2 ^ 11 := by
  have hmask : surrogateMask = (2 ^ 21 - 1) * 2 ^ 11 := by decide
  refine eq_of_testBit_eq fun i => ?_
  rw [hmask, testBit_and, testBit_mul_two_pow, testBit_two_pow_sub_one,
    testBit_mul_two_pow, testBit_div_two_pow]
  by_cases hi : 11 ≤ i
  · rw [Nat.sub_add_cancel hi]
    by_cases hhigh : i - 11 < 21
    · simp [hi, hhigh]
    · have : l.testBit i = false :=
        testBit_lt_two_pow (h.trans_le (Nat.pow_le_pow_right (by omega) (by omega)))
      simp [this]
  · simp [hi]

lemma surrogate_iff {l : ℕ} (h : l < 2 ^ 32) :
    l &&& surrogateMask = surrogatePair ↔ 0xd800 ≤ l ∧ l < 0xe000 := by
  rw [and_surrogateMask h, surrogatePair]
  omega

lemma and_surrogateBits (l : ℕ) : l &&& surrogateBits = l % 0x400 :=
  and_two_pow_sub_one_eq_mod l 10

lemma and_surrogateLow (l : ℕ) : l &&& surrogateLow = l / 0x400 % 2 * 0x400 := by
  rw [show surrogateLow = 2 ^ 10 from rfl, and_two_pow, testBit_eq_decide_div_mod_eq]
  show (decide (l / 0x400 % 2 = 1)).toNat * 0x400 = _
  rcases mod_two_eq_zero_or_one (l / 0x400) with h | h <;> simp [h]

lemma unit_toNat {x : ℕ} (h : x < 0x10000) : (UInt16.ofNat x).toNat = x := by
  rw [UInt16.toNat_ofNat']
  omega

lemma lead_iff : ∀ x < 256,
    (x &&& 0x80 = 0x00 ↔ x < 0x80) ∧ (x &&& 0xE0 = 0xC0 ↔ 0xC0 ≤ x ∧ x < 0xE0) ∧
      (x &&& 0xF0 = 0xE0 ↔ 0xE0 ≤ x ∧ x < 0xF0) ∧ (x &&& 0xF8 = 0xF0 ↔ 0xF0 ≤ x ∧ x < 0xF8) := by
  decide +kernel

lemma lead_or :
    (∀ x < 0x20, 0xC0 ||| x = 0xC0 + x) ∧ (∀ x < 0x10, 0xE0 ||| x = 0xE0 + x) ∧
      (∀ x < 8, 0xF0 ||| x = 0xF0 + x) ∧ (∀ x < 0x40, 0x80 ||| x = 0x80 + x) := by decide +kernel

lemma follow_xor : ∀ x < 0x40, ((0x80 + x) ^^^ 0x80) &&& 0xFF = x ∧ x &&& 0xC0 = 0 := by
  decide +kernel

variable {s : List UInt8} {bigHost : Bool} {c0 l x nc maxlen : ℕ} {t : Utf8Entry}
  {ts : List Utf8Entry} {c : Char} {w : List UInt16}

lemma utf8ToUtf32Loop_follow (hne : c0 &&& t.cmask ≠ t.cval) (hx : x < 0x40) :
    utf8ToUtf32Loop c0 (t :: ts) nc l (UInt8.ofNat (0x80 + x) :: s)
      = utf8ToUtf32Loop c0 ts (nc + 1) (l * 64 + x) s := by
  have hbyte : (UInt8.ofNat (0x80 + x)).toNat = 0x80 + x := by
    rw [UInt8.toNat_ofNat']
    omega
  rw [utf8ToUtf32Loop, if_neg hne]
  simp only [hbyte, (follow_xor x hx).1, (follow_xor x hx).2, ne_eq, not_true_eq_false, if_false]
  rw [← shiftLeft_add_eq_or_of_lt (show x < 2 ^ 6 from hx), shiftLeft_eq]

lemma utf8ToUtf32Loop_lead {k v : ℕ} (heq : c0 &&& t.cmask = t.cval)
    (hmask : t.lmask = 2 ^ k - 1) (hl : l % 2 ^ k = v) (hlow : t.lval ≤ v) (hmax : v ≤ unicodeMax)
    (hsur : ¬ (0xd800 ≤ v ∧ v < 0xe000)) :
    utf8ToUtf32Loop c0 (t :: ts) nc l s = some (v, nc + 1) := by
  have hv : l &&& t.lmask = v := by rw [hmask, and_two_pow_sub_one_eq_mod, hl]
  rw [utf8ToUtf32Loop.eq_def]
  simp only [heq, if_true, hv]
  rw [if_neg]
  rw [surrogate_iff (by rw [unicodeMax] at hmax; omega)]
  omega

lemma char_bounds (c : Char) :
    c.toNat ≤ unicodeMax ∧ ¬ (0xd800 ≤ c.toNat ∧ c.toNat < 0xe000) := by
  have h : c.toNat < 55296 ∨ 57343 < c.toNat ∧ c.toNat < 1114112 := c.valid
  rw [unicodeMax]
  omega

lemma utf8EncodeChar_cases (c : Char) :
    (c.toNat < 0x80 ∧ String.utf8EncodeChar c = [UInt8.ofNat c.toNat])
    ∨ (0x80 ≤ c.toNat ∧ c.toNat < 0x800 ∧ String.utf8EncodeChar c
        = [UInt8.ofNat (0xC0 + c.toNat / 64), UInt8.ofNat (0x80 + c.toNat % 64)])
    ∨ (0x800 ≤ c.toNat ∧ c.toNat < 0x10000 ∧ String.utf8EncodeChar c
        = [UInt8.ofNat (0xE0 + c.toNat / 4096), UInt8.ofNat (0x80 + c.toNat / 64 % 64),
          UInt8.ofNat (0x80 + c.toNat % 64)]) ∨ (0x10000 ≤ c.toNat ∧ String.utf8EncodeChar c
        = [UInt8.ofNat (0xF0 + c.toNat / 262144), UInt8.ofNat (0x80 + c.toNat / 4096 % 64),
          UInt8.ofNat (0x80 + c.toNat / 64 % 64), UInt8.ofNat (0x80 + c.toNat % 64)]) := by
  obtain ⟨hmax, -⟩ := char_bounds c
  rw [unicodeMax] at hmax
  have hval : c.val.toNat = c.toNat := rfl
  rw [String.utf8EncodeChar]
  simp only [hval]
  split
  · exact .inl ⟨by omega, rfl⟩
  split
  · refine .inr (.inl ⟨by omega, by omega, ?_⟩)
    rw [mod_eq_of_lt (show c.toNat / 64 < 32 by omega), add_comm, add_comm (_ % 64)]
  split
  · refine .inr (.inr (.inl ⟨by omega, by omega, ?_⟩))
    rw [mod_eq_of_lt (show c.toNat / 4096 < 16 by omega), add_comm,
      add_comm (_ % 64), add_comm (_ % 64)]
  · refine .inr (.inr (.inr ⟨by omega, ?_⟩))
    rw [mod_eq_of_lt (show c.toNat / 262144 < 8 by omega), add_comm,
      add_comm (_ % 64), add_comm (_ % 64), add_comm (_ % 64)]

lemma putUtf16_char (c : Char) : putUtf16 c.toNat = utf16EncodeChar c := by
  obtain ⟨hmax, -⟩ := char_bounds c
  rw [unicodeMax] at hmax
  have hor (x : ℕ) (hx : x < 0x400) :
      surrogatePair ||| x = 0xd800 + x ∧ surrogatePair ||| surrogateLow ||| x = 0xdc00 + x := by
    rw [show surrogatePair = 54 <<< 10 from rfl,
      show 54 <<< 10 ||| surrogateLow = 55 <<< 10 from by decide,
      ← shiftLeft_add_eq_or_of_lt (show x < 2 ^ 10 from hx),
      ← shiftLeft_add_eq_or_of_lt (show x < 2 ^ 10 from hx)]
    exact ⟨rfl, rfl⟩
  rw [putUtf16, utf16EncodeChar, planeSize]
  by_cases h : c.toNat < 0x10000
  · rw [if_neg (by omega), if_pos h]
  · rw [if_pos (by omega), if_neg h, and_surrogateBits, and_surrogateBits, shiftRight_eq_div_pow,
      (hor _ (mod_lt _ (by omega))).1, (hor _ (mod_lt _ (by omega))).2,
      mod_eq_of_lt (show (c.toNat - 0x10000) / 2 ^ 10 < 0x400 by omega)]
    rfl

lemma toNat_ofNat (h : x < 256) : (UInt8.ofNat x).toNat = x := by
  rw [UInt8.toNat_ofNat']
  omega

lemma utf8ToUtf32_char (h : 0x80 ≤ c.toNat) :
    ∃ b r, String.utf8EncodeChar c = b :: r ∧ b.toNat &&& 0x80 ≠ 0 ∧
      utf8ToUtf32 b (r ++ s) = some (c.toNat, r.length + 1) := by
  obtain ⟨hmax, hsur⟩ := char_bounds c
  have hmax' := hmax
  rw [unicodeMax] at hmax'
  rcases utf8EncodeChar_cases c with ⟨hlt, -⟩ | ⟨hlow, hhigh, he⟩ | ⟨hlow, hhigh, he⟩ | ⟨hlow, he⟩
  · omega
  · have hb : 0xC0 + c.toNat / 64 < 256 := by omega
    have hlead := lead_iff _ hb
    refine ⟨_, _, he, by rw [toNat_ofNat hb]; omega, ?_⟩
    rw [utf8ToUtf32, toNat_ofNat hb, utf8Table, cons_append,
      utf8ToUtf32Loop_follow (by show _ &&& 0x80 ≠ 0x00; omega) (by omega),
      utf8ToUtf32Loop_lead (k := 11) (v := c.toNat) (by show _ &&& 0xE0 = 0xC0; omega) rfl
      (by omega) hlow hmax hsur]
    rfl
  · have hb : 0xE0 + c.toNat / 4096 < 256 := by omega
    have hlead := lead_iff _ hb
    refine ⟨_, _, he, by rw [toNat_ofNat hb]; omega, ?_⟩
    rw [utf8ToUtf32, toNat_ofNat hb, utf8Table, cons_append, cons_append,
      utf8ToUtf32Loop_follow (by show _ &&& 0x80 ≠ 0x00; omega) (by omega),
      utf8ToUtf32Loop_follow (by show _ &&& 0xE0 ≠ 0xC0; omega) (by omega),
      utf8ToUtf32Loop_lead (k := 16) (v := c.toNat) (by show _ &&& 0xF0 = 0xE0; omega) rfl
      (by omega) hlow hmax hsur]
    rfl
  · have hb : 0xF0 + c.toNat / 262144 < 256 := by omega
    have hlead := lead_iff _ hb
    refine ⟨_, _, he, by rw [toNat_ofNat hb]; omega, ?_⟩
    rw [utf8ToUtf32, toNat_ofNat hb, utf8Table, cons_append, cons_append,
      cons_append, utf8ToUtf32Loop_follow (by show _ &&& 0x80 ≠ 0x00; omega) (by omega),
      utf8ToUtf32Loop_follow (by show _ &&& 0xE0 ≠ 0xC0; omega) (by omega),
      utf8ToUtf32Loop_follow (by show _ &&& 0xF0 ≠ 0xE0; omega) (by omega),
      utf8ToUtf32Loop_lead (k := 21) (v := c.toNat) (by show _ &&& 0xF8 = 0xF0; omega) rfl
      (by omega) hlow hmax hsur]
    rfl

lemma utf8sToUtf16s_char (hc : c ≠ '\x00') :
    utf8sToUtf16s (String.utf8EncodeChar c ++ s)
      = (utf8sToUtf16s s).map (utf16EncodeChar c ++ ·) := by
  have hpos : c.toNat ≠ 0 := fun h => hc (Char.toNat_inj.mp h)
  by_cases hascii : c.toNat < 0x80
  · obtain ⟨-, he⟩ | ⟨h, -⟩ | ⟨h, -⟩ | ⟨h, -⟩ := utf8EncodeChar_cases c
    · have hb := toNat_ofNat (show c.toNat < 256 by omega)
      have hlead := lead_iff c.toNat (by omega)
      have hne : UInt8.ofNat c.toNat ≠ 0 := fun h => hpos (by rw [← hb, h]; rfl)
      have hunit : utf16EncodeChar c = [(UInt8.ofNat c.toNat).toUInt16] := by
        rw [utf16EncodeChar, if_pos (by omega)]
        congr 1
        apply UInt16.toNat_inj.mp
        rw [UInt8.toNat_toUInt16, hb, UInt16.toNat_ofNat']
        omega
      rw [he, singleton_append, utf8sToUtf16s, if_neg hne, hb, if_neg (by omega), hunit]
      rfl
    all_goals omega
  · obtain ⟨b, r, he, hhigh, hdec⟩ := utf8ToUtf32_char (c := c) (s := s) (by omega)
    have hne : b ≠ 0 := fun h => hhigh (by rw [h]; rfl)
    rw [he, cons_append, utf8sToUtf16s, if_neg hne, if_pos hhigh, hdec]
    simp only [Nat.add_sub_cancel, drop_left, putUtf16_char]

lemma utf32ToUtf8_char (c : Char) (h : (String.utf8EncodeChar c).length ≤ maxlen) :
    utf32ToUtf8 c.toNat maxlen = some (String.utf8EncodeChar c) := by
  obtain ⟨hmax, hsur⟩ := char_bounds c
  have hmax' := hmax
  rw [unicodeMax] at hmax'
  have hfollow (x : ℕ) : 0x80 ||| (x &&& 0x3F) = 0x80 + x % 64 := by
    rw [show x &&& 0x3F = x % 64 from and_two_pow_sub_one_eq_mod x 6]
    exact lead_or.2.2.2 _ (mod_lt _ (by omega))
  have hcont (k : ℕ) : continuation c.toNat (6 * (k + 1))
      = UInt8.ofNat (0x80 + c.toNat / 2 ^ (6 * k) % 64) :: continuation c.toNat (6 * k) := by
    rw [continuation, if_pos (by omega), show 6 * (k + 1) - 6 = 6 * k by omega, hfollow,
      shiftRight_eq_div_pow]
  have hnil : continuation c.toNat (6 * 0) = [] := by rw [continuation]; rfl
  rw [utf32ToUtf8, if_neg (by rw [surrogate_iff (by omega)]; omega), utf8Table]
  rcases utf8EncodeChar_cases c with ⟨hlt, he⟩ | ⟨hlow, hhigh, he⟩ | ⟨hlow, hhigh, he⟩ | ⟨hlow, he⟩
  · rw [he] at h ⊢
    obtain ⟨n, rfl⟩ : ∃ n, maxlen = n + 1 := ⟨maxlen - 1, by simp at h; omega⟩
    rw [utf32ToUtf8Loop, if_pos (by show _ ≤ 0x7F; omega)]
    show some (UInt8.ofNat (0 ||| c.toNat >>> 0) :: continuation _ (6 * 0)) = _
    rw [hnil, shiftRight_zero, zero_or]
  · rw [he] at h ⊢
    obtain ⟨n, rfl⟩ : ∃ n, maxlen = n + 2 := ⟨maxlen - 2, by simp at h; omega⟩
    rw [utf32ToUtf8Loop, if_neg (by show ¬ _ ≤ 0x7F; omega), utf32ToUtf8Loop,
      if_pos (by show _ ≤ 0x7FF; omega)]
    show some (UInt8.ofNat (0xC0 ||| c.toNat >>> 6) :: continuation _ (6 * 1)) = _
    rw [hcont, hnil, shiftRight_eq_div_pow, lead_or.1 _ (by omega)]
    simp
  · rw [he] at h ⊢
    obtain ⟨n, rfl⟩ : ∃ n, maxlen = n + 3 := ⟨maxlen - 3, by simp at h; omega⟩
    rw [utf32ToUtf8Loop, if_neg (by show ¬ _ ≤ 0x7F; omega), utf32ToUtf8Loop,
      if_neg (by show ¬ _ ≤ 0x7FF; omega), utf32ToUtf8Loop, if_pos (by show _ ≤ 0xFFFF; omega)]
    show some (UInt8.ofNat (0xE0 ||| c.toNat >>> 12) :: continuation _ (6 * 2)) = _
    rw [hcont, hcont, hnil, shiftRight_eq_div_pow, lead_or.2.1 _ (by omega)]
    simp
  · rw [he] at h ⊢
    obtain ⟨n, rfl⟩ : ∃ n, maxlen = n + 4 := ⟨maxlen - 4, by simp at h; omega⟩
    rw [utf32ToUtf8Loop, if_neg (by show ¬ _ ≤ 0x7F; omega), utf32ToUtf8Loop,
      if_neg (by show ¬ _ ≤ 0x7FF; omega), utf32ToUtf8Loop,
      if_neg (by show ¬ _ ≤ 0xFFFF; omega), utf32ToUtf8Loop, if_pos (by show _ ≤ 0x1FFFFF; omega)]
    show some (UInt8.ofNat (0xF0 ||| c.toNat >>> 18) :: continuation _ (6 * 3)) = _
    rw [hcont, hcont, hcont, hnil, shiftRight_eq_div_pow, lead_or.2.2.1 _ (by omega)]
    simp

lemma length_utf8EncodeChar_pos (c : Char) : 1 ≤ (String.utf8EncodeChar c).length := by
  rcases utf8EncodeChar_cases c with ⟨-, he⟩ | ⟨-, -, he⟩ | ⟨-, -, he⟩ | ⟨-, he⟩ <;> simp [he]

lemma utf16sToUtf8s_unit (hpos : c.toNat ≠ 0)
    (hbmp : c.toNat < 0x10000) (h : (String.utf8EncodeChar c).length ≤ maxlen) :
    utf16sToUtf8s bigHost .host (UInt16.ofNat c.toNat :: w) maxlen = String.utf8EncodeChar c
        ++ utf16sToUtf8s bigHost .host w (maxlen - (String.utf8EncodeChar c).length) := by
  obtain ⟨-, hsur⟩ := char_bounds c
  have hlen := length_utf8EncodeChar_pos c
  rw [utf16sToUtf8s.eq_def]
  simp only [getUtf16, unit_toNat hbmp]
  rw [if_neg (by omega), if_neg hpos]
  by_cases hascii : c.toNat < 0x80
  · obtain ⟨-, he⟩ | ⟨h, -⟩ | ⟨h, -⟩ | ⟨h, -⟩ := utf8EncodeChar_cases c
    · rw [if_neg (by omega), he]
      rfl
    all_goals omega
  · rw [if_pos (by omega), if_neg (by rw [surrogate_iff (by omega)]; exact hsur),
      utf32ToUtf8_char c h]

lemma utf16sToUtf8s_pair {u v : ℕ} (hu : 0xd800 ≤ u ∧ u < 0xdc00)
    (hv : 0xdc00 ≤ v ∧ v < 0xe000) (hc : c.toNat = 0x10000 + u % 0x400 * 0x400 + v % 0x400)
    (h : (String.utf8EncodeChar c).length ≤ maxlen) :
    utf16sToUtf8s bigHost .host (UInt16.ofNat u :: UInt16.ofNat v :: w) maxlen
      = String.utf8EncodeChar c
        ++ utf16sToUtf8s bigHost .host w (maxlen - (String.utf8EncodeChar c).length) := by
  have hlen := length_utf8EncodeChar_pos c
  have hub : u &&& surrogateLow = 0 := by
    rw [and_surrogateLow]
    omega
  have hvb : v &&& surrogateLow ≠ 0 := by
    rw [and_surrogateLow]
    omega
  have hus : u &&& surrogateMask = surrogatePair := (surrogate_iff (by omega)).mpr (by omega)
  have hvs : v &&& surrogateMask = surrogatePair := (surrogate_iff (by omega)).mpr (by omega)
  have hjoin : planeSize + (u &&& surrogateBits) <<< 10 + (v &&& surrogateBits) = c.toNat := by
    rw [and_surrogateBits, and_surrogateBits, shiftLeft_eq, planeSize, hc]
  rw [utf16sToUtf8s.eq_def]
  simp only [getUtf16, unit_toNat (show u < 0x10000 by omega),
    unit_toNat (show v < 0x10000 by omega),
    hus, hvs, hub, hvb, hjoin, utf32ToUtf8_char c h, ne_eq, not_true_eq_false, or_self, if_true,
    if_false]
  rw [if_neg (by omega), if_neg (by omega), if_pos (by omega)]

lemma utf16sToUtf8s_char (hc : c ≠ '\x00')
    (h : (String.utf8EncodeChar c).length ≤ maxlen) :
    utf16sToUtf8s bigHost .host (utf16EncodeChar c ++ w) maxlen = String.utf8EncodeChar c
        ++ utf16sToUtf8s bigHost .host w (maxlen - (String.utf8EncodeChar c).length) := by
  have hpos : c.toNat ≠ 0 := fun h => hc (Char.toNat_inj.mp h)
  obtain ⟨hmax, -⟩ := char_bounds c
  rw [unicodeMax] at hmax
  rw [utf16EncodeChar]
  split
  case isTrue hbmp => exact utf16sToUtf8s_unit hpos hbmp h
  case isFalse hplane => exact utf16sToUtf8s_pair (by omega) (by omega) (by omega) h

lemma length_utf8EncodeChar_le (c : Char) :
    (String.utf8EncodeChar c).length ≤ 3 * (utf16EncodeChar c).length := by
  rw [utf16EncodeChar]
  rcases utf8EncodeChar_cases c with ⟨-, he⟩ | ⟨-, -, he⟩ | ⟨-, -, he⟩ | ⟨hc, he⟩
  · split <;> simp [he]
  · split <;> simp [he]
  · split <;> simp [he]
  · rw [if_neg (by omega)]
    simp [he]

lemma utf8sToUtf16s_encode : ∀ {cs : List Char}, (∀ c ∈ cs, c ≠ '\x00') →
    utf8sToUtf16s (cs.flatMap String.utf8EncodeChar) = some (cs.flatMap utf16EncodeChar)
  | [], _ => by
    rw [flatMap_nil, utf8sToUtf16s]
    rfl
  | c :: cs, h => by
    rw [forall_mem_cons] at h
    rw [flatMap_cons, flatMap_cons, utf8sToUtf16s_char h.1, utf8sToUtf16s_encode h.2]
    rfl

lemma utf16sToUtf8s_encode : ∀ {cs : List Char} {maxlen : ℕ}, (∀ c ∈ cs, c ≠ '\x00') →
    (cs.flatMap String.utf8EncodeChar).length ≤ maxlen →
    utf16sToUtf8s bigHost .host (cs.flatMap utf16EncodeChar) maxlen
      = cs.flatMap String.utf8EncodeChar
  | [], maxlen, _, _ => by rw [flatMap_nil, flatMap_nil, utf16sToUtf8s]
  | c :: cs, maxlen, h, hlen => by
    rw [forall_mem_cons] at h
    rw [flatMap_cons, length_append] at hlen
    rw [flatMap_cons, flatMap_cons, utf16sToUtf8s_char h.1 (by omega),
      utf16sToUtf8s_encode h.2 (by omega)]

lemma length_utf8Encode_le : ∀ cs : List Char,
    (cs.flatMap String.utf8EncodeChar).length ≤ 3 * (cs.flatMap utf16EncodeChar).length
  | [] => by simp
  | c :: cs => by
    have hc := length_utf8EncodeChar_le c
    have ih := length_utf8Encode_le cs
    rw [flatMap_cons, flatMap_cons, length_append, length_append]
    omega

/-- Well-formed UTF-8 comes back from UTF-16 as it was, and well-formed UTF-16 from UTF-8. -/
theorem utf_round_trip (bigHost : Bool) :
    (∀ s, WellFormedUtf8 s → ∃ w, utf8sToUtf16s s = some w ∧
      ∀ maxlen, s.length ≤ maxlen → utf16sToUtf8s bigHost .host w maxlen = s) ∧
    (∀ w, WellFormedUtf16 w → ∀ maxlen, 3 * w.length ≤ maxlen →
      utf8sToUtf16s (utf16sToUtf8s bigHost .host w maxlen) = some w) := by
  constructor
  · rintro s ⟨cs, hcs, rfl⟩
    exact ⟨_, utf8sToUtf16s_encode hcs, fun maxlen hlen => utf16sToUtf8s_encode hcs hlen⟩
  · rintro w ⟨cs, hcs, rfl⟩ maxlen hlen
    rw [utf16sToUtf8s_encode hcs ((length_utf8Encode_le cs).trans hlen), utf8sToUtf16s_encode hcs]

theorem utf_round_trip_four :
    ∃ w, utf8sToUtf16s [0x61, 0xC3, 0xA9, 0xE2, 0x82, 0xAC, 0xF0, 0x9F, 0x98, 0x80] = some w ∧
      utf16sToUtf8s false .host w 10
        = [0x61, 0xC3, 0xA9, 0xE2, 0x82, 0xAC, 0xF0, 0x9F, 0x98, 0x80] := by
  obtain ⟨w, hw, hback⟩ := (utf_round_trip false).1
    [0x61, 0xC3, 0xA9, 0xE2, 0x82, 0xAC, 0xF0, 0x9F, 0x98, 0x80]
    ⟨['a', 'é', '€', '😀'], by simp, by decide +kernel⟩
  exact ⟨w, hw, hback 10 (by decide)⟩

end LinuxKernel.Nls
