import LinuxKernel.PutDec
import LinuxKernel.Proofs.BitmapList
import LinuxKernel.Proofs.Div64

/-!
# `put_dec` writes the decimal digits

The four sums from which `put_dec_trunc` and `put_dec_full` take the digits have the quotients of
`q` by 10, 100 and 1000 in them, and the divisions by multiplication are exact in their range.
-/

namespace LinuxKernel.Lib

variable {q : ℕ}

structure DecSums (q d3 : ℕ) (s0 s1 s2 s3 : ℕ) : Prop where
  digit0 : s0 - 10 * ((s0 * 0xcd) >>> 11) = q % 10
  digit1 : s1 - 10 * ((s1 * 0xcd) >>> 11) = q / 10 % 10
  digit2 : s2 - 10 * ((s2 * 0xd) >>> 7) = q / 10 / 10 % 10
  digit3 : s3 - 10 * (q / 10 / 10 / 10 / 10) = q / 10 / 10 / 10 % 10
  digit4 : (s3 * 0xcd) >>> 11 = q / 10 / 10 / 10 / 10
  two : s1 = 0 ↔ q / 10 = 0
  three : s2 = 0 ∧ d3 = 0 ↔ q / 10 / 10 = 0
  four : s3 = 0 ↔ q / 10 / 10 / 10 = 0

lemma mul_cd_shift {x : ℕ} (h : x < 1029) : (x * 0xcd) >>> 11 = x / 10 := by
  rw [Nat.shiftRight_eq_div_pow]
  omega

lemma mul_d_shift {x : ℕ} (h : x < 69) : (x * 0xd) >>> 7 = x / 10 := by
  rw [Nat.shiftRight_eq_div_pow]
  omega

lemma decSums (hq : q < 100000) {d1 d2 d3 s0 s1 s2 s3 : ℕ} (hd1 : d1 = (q >>> 4) &&& 0xf)
    (hd2 : d2 = (q >>> 8) &&& 0xf) (hd3 : d3 = q >>> 12)
    (hs0 : s0 = 6 * (d3 + d2 + d1) + (q &&& 0xf))
    (hs1 : s1 = (s0 * 0xcd) >>> 11 + 9 * d3 + 5 * d2 + d1)
    (hs2 : s2 = (s1 * 0xcd) >>> 11 + 2 * d2) (hs3 : s3 = (s2 * 0xd) >>> 7 + 4 * d3) :
    DecSums q d3 s0 s1 s2 s3 := by
  have hmask : ∀ x : ℕ, x &&& 0xf = x % 16 := fun x => Nat.and_two_pow_sub_one_eq_mod x 4
  rw [hmask, Nat.shiftRight_eq_div_pow] at hd1 hd2
  rw [hmask] at hs0
  rw [Nat.shiftRight_eq_div_pow] at hd3
  obtain ⟨r, hr⟩ : ∃ r, r = q % 16 := ⟨_, rfl⟩
  rw [← hr] at hs0
  have hnibbles : q = 4096 * d3 + 256 * d2 + 16 * d1 + r ∧ r < 16 ∧ d1 < 16 ∧ d2 < 16 ∧
      d3 < 25 := by omega
  clear hd1 hd2 hd3 hr
  obtain ⟨rfl, hr, hd1, hd2, hd3⟩ := hnibbles
  rw [mul_cd_shift (by omega)] at hs1
  rw [mul_cd_shift (by omega)] at hs2
  rw [mul_d_shift (by omega)] at hs3
  -- the weights 16, 256 and 4096 are 6 + 10, 6 + 50 + 200 and 6 + 90 + 4000
  obtain ⟨q, hq⟩ : ∃ q, q = 4096 * d3 + 256 * d2 + 16 * d1 + r := ⟨_, rfl⟩
  rw [← hq]
  have hq1 : q / 10 = s1 + 20 * d2 + 400 * d3 := by omega
  have hq2 : q / 10 / 10 = s2 + 40 * d3 := by
    rw [hq1]
    omega
  have hq3 : q / 10 / 10 / 10 = s3 := by
    rw [hq2]
    omega
  refine ⟨?_, ?_, ?_, ?_, ?_, ?_, ?_, ?_⟩
  · rw [mul_cd_shift (by omega)]
    omega
  · rw [mul_cd_shift (by omega), hq1]
    omega
  · rw [mul_d_shift (by omega), hq2]
    omega
  · rw [hq3]
    omega
  · rw [mul_cd_shift (by omega), hq3]
  · rw [hq1]
    omega
  · rw [hq2]
    omega
  · rw [hq3]

lemma reverse_numberDec (n : ℕ) : (numberDec n).reverse
    = putDigit (n % 10) :: if n / 10 = 0 then [] else (numberDec (n / 10)).reverse := by
  have hdigits : ∀ {n : ℕ}, n ≠ 0 → (numberDec n).reverse = (Nat.digits 10 n).map putDigit := by
    intro n hn
    rw [numberDec, if_neg hn, List.reverse_reverse]
    rfl
  by_cases h0 : n = 0
  · subst h0
    rfl
  · rw [hdigits h0, Nat.digits_def' (by norm_num) (Nat.pos_of_ne_zero h0), List.map_cons]
    split_ifs with h1
    · rw [h1, Nat.digits_zero, List.map_nil]
    · rw [hdigits h1]

lemma putDecTrunc_eq (hq : q < 100000) : putDecTrunc q = (numberDec q).reverse := by
  have h := decSums hq rfl rfl rfl rfl rfl rfl rfl
  unfold putDecTrunc
  simp only [h.digit0, h.digit1, h.digit2, h.digit3, h.digit4]
  rw [reverse_numberDec q, reverse_numberDec (q / 10), reverse_numberDec (q / 10 / 10),
    reverse_numberDec (q / 10 / 10 / 10), reverse_numberDec (q / 10 / 10 / 10 / 10)]
  simp only [ne_eq, h.two, ← not_and_or, h.three, h.four, ite_not]
  rw [if_pos (show q / 10 / 10 / 10 / 10 / 10 = 0 by omega),
    Nat.mod_eq_of_lt (show q / 10 / 10 / 10 / 10 < 10 by omega)]

lemma putDecFull_eq {num : ℕ} (h : 100000 ≤ num) : (numberDec num).reverse
    = putDecFull (num % 100000) ++ (numberDec (num / 100000)).reverse := by
  have hq := decSums (Nat.mod_lt num (show 100000 > 0 by norm_num)) rfl rfl rfl rfl rfl rfl rfl
  unfold putDecFull
  simp only [hq.digit0, hq.digit1, hq.digit2, hq.digit3, hq.digit4]
  rw [reverse_numberDec, if_neg (by omega), reverse_numberDec, if_neg (by omega),
    reverse_numberDec, if_neg (by omega), reverse_numberDec, if_neg (by omega),
    reverse_numberDec, if_neg (by omega), show num / 10 / 10 / 10 / 10 / 10 = num / 100000 by omega,
    show num % 10 = num % 100000 % 10 by omega,
    show num / 10 % 10 = num % 100000 / 10 % 10 by omega,
    show num / 10 / 10 % 10 = num % 100000 / 10 / 10 % 10 by omega,
    show num / 10 / 10 / 10 % 10 = num % 100000 / 10 / 10 / 10 % 10 by omega,
    show num / 10 / 10 / 10 / 10 % 10 = num % 100000 / 10 / 10 / 10 / 10 by omega]
  rfl

lemma putDec_run (L : LongSize) : ∀ (fuel num : ℕ), num < 2 ^ 64 → num < 100000 ^ fuel →
    0 < fuel → putDec L fuel num = some (numberDec num).reverse
  | fuel + 1, num, hnum, hfuel, _ => by
    rw [putDec]
    split_ifs with h
    · rw [putDecTrunc_eq h]
    have hsmall : num / 100000 < 100000 ^ fuel := by
      rw [Nat.div_lt_iff_lt_mul (by norm_num), ← pow_succ]
      exact hfuel
    have hpos : 0 < fuel := by
      rcases Nat.eq_zero_or_pos fuel with rfl | hpos
      · simp at hsmall
        omega
      · exact hpos
    rw [doDiv_spec L hnum (by norm_num) (by norm_num), Option.bind_some,
      putDec_run L fuel _ (by omega) hsmall hpos, Option.map_some, ← putDecFull_eq (by omega)]

/-- `put_dec` returns and writes the decimal digits, the least significant first; the number that
`simple_strtoull` reads from them in the other order is the same. -/
theorem putDec_digits (L : LongSize) (num fuel : ℕ) (hnum : num < 2 ^ 64) (hfuel : 4 ≤ fuel) :
    ∃ buf, putDec L fuel num = some buf ∧
      buf = (if num = 0 then [0] else Nat.digits 10 num).map putDigit ∧
      simpleStrtoull buf.reverse 10 = (num, []) := by
  have hbound : num < 100000 ^ fuel := lt_of_lt_of_le (show num < 100000 ^ 4 by omega)
    (Nat.pow_le_pow_right (by norm_num) hfuel)
  refine ⟨_, putDec_run L fuel num hnum hbound (by omega), ?_, ?_⟩
  · rw [numberDec]
    split_ifs
    · rfl
    · rw [List.reverse_reverse]
      rfl
  · have hnil : isdigit (charAt []) = false := by decide
    have hloop := strtoullLoop_span hnil (numberDec num) 0 (numberDec_isdigit num)
    have hvalue := decimal_numberDec num
    rw [decimal] at hvalue
    rw [List.append_nil, Nat.zero_mod, hvalue, Nat.mod_eq_of_lt hnum] at hloop
    rw [List.reverse_reverse, simpleStrtoull]
    simp only [show (10 : ℕ) ≠ 0 by norm_num, show (10 : ℕ) ≠ 16 by norm_num, false_and, if_false]
    exact hloop

theorem putDec_digits_max : ∃ buf, putDec .long32 4 (2 ^ 64 - 1) = some buf ∧
    buf = (if 2 ^ 64 - 1 = 0 then [0] else Nat.digits 10 (2 ^ 64 - 1)).map putDigit ∧
    simpleStrtoull buf.reverse 10 = (2 ^ 64 - 1, []) :=
  putDec_digits _ _ _ (by norm_num) (by norm_num)

end LinuxKernel.Lib
