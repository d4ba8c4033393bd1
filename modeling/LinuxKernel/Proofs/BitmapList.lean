import LinuxKernel.BitmapList
import LinuxKernel.Proofs.Bitmap

/-!
# The list form of a bitmap is read back

`bitmap_scnlistprintf` writes the runs of set bits as ranges, and `bitmap_parselist` sets the bits
of any list of ranges written that way, but rejects the empty string, which is what a bitmap with no
bit set is printed as.
-/

namespace LinuxKernel.Lib

open List

variable {L : LongSize} {rs : List (ℕ × ℕ)} {tail : List UInt8} {cur n rbot x nmaskbits : ℕ}
  {bit : ℕ → Bool} {c : UInt8}

section

/-- `r` is the first position from `lo` on with its bit set, or `size` when there is none below. -/
structure NextBit (bit : ℕ → Bool) (lo size r : ℕ) : Prop where
  le : r ≤ size
  hit : r < size → lo ≤ r ∧ bit r = true
  miss : ∀ n, lo ≤ n → n < r → bit n = false

lemma NextBit.skip {lo lo' size r : ℕ} (h : NextBit bit lo' size r)
    (hlo : lo ≤ lo') (hclear : ∀ n, lo ≤ n → n < lo' → bit n = false) : NextBit bit lo size r where
  le := h.le
  hit hr := ⟨hlo.trans (h.hit hr).1, (h.hit hr).2⟩
  miss n h1 h2 := by
    by_cases hn : n < lo'
    · exact hclear n h1 hn
    · exact h.miss n (by omega) h2

variable {p size : ℕ} {tmp : BitVec L.bits}

lemma NextBit.from_le {lo r : ℕ} (h : NextBit bit lo size r)
    (hlo : lo ≤ size) : lo ≤ r := by
  rcases lt_or_ge r size with hlt | hge
  · exact (h.hit hlt).1
  · exact hlo.trans hge

lemma ffs_spec {w : ℕ} {x : BitVec w} (hx : x ≠ 0) :
    ffs x < w ∧ x.getLsbD (ffs x) = true ∧ ∀ i < ffs x, x.getLsbD i = false := by
  cases hf : findNext (fun i : Fin w => x.getLsbD i) 0 with
  | none =>
    refine absurd (BitVec.eq_of_getLsbD_eq fun i hi => ?_) hx
    simpa using findNext_none hf ⟨i, hi⟩ (Nat.zero_le _)
  | some m =>
    have he : ffs x = m := by rw [ffs, hf, Option.map_some, Option.getD_some]
    obtain ⟨h1, -, h3⟩ := findNext_some hf
    rw [he]
    exact ⟨m.2, h1, fun i hi => h3 ⟨i, hi.trans m.2⟩ (Nat.zero_le _) hi⟩

variable (addr : Bitmap L)

lemma word_search {off lim : ℕ} (size : ℕ) (hlim : lim ≤ L.bits)
    (htmp : ∀ x < L.bits, tmp.getLsbD x = (decide (off ≤ x ∧ x < lim) && (addr p).getLsbD x)) :
    (tmp ≠ 0 → L.bits * p + lim ≤ size →
        NextBit addr.test (L.bits * p + off) size (L.bits * p + ffs tmp))
      ∧ (tmp = 0 → ∀ n, L.bits * p + off ≤ n → n < L.bits * p + lim → addr.test n = false) := by
  constructor
  · intro h0 hsize
    obtain ⟨h1, h2, h3⟩ := ffs_spec h0
    rw [htmp _ h1, Bool.and_eq_true, decide_eq_true_eq] at h2
    refine ⟨by omega, fun _ => ⟨by omega, ?_⟩, fun n hn hlt => ?_⟩
    · rw [addr.test_mul_add p h1]
      exact h2.2
    · obtain ⟨x, rfl⟩ := Nat.exists_eq_add_of_le (show L.bits * p ≤ n by omega)
      have h4 := h3 x (by omega)
      rw [htmp x (by omega), decide_eq_true (by omega), Bool.true_and] at h4
      rw [addr.test_mul_add p (by omega), h4]
  · intro h0 n hn hlt
    obtain ⟨x, rfl⟩ := Nat.exists_eq_add_of_le (show L.bits * p ≤ n by omega)
    have h4 := htmp x (by omega)
    rw [h0, decide_eq_true (by omega), Bool.true_and] at h4
    rw [addr.test_mul_add p (by omega), ← h4]
    exact BitVec.getLsbD_zero

lemma foundFirst_spec (off : ℕ) (hsize : size < L.bits)
    (htmp : ∀ x < L.bits, tmp.getLsbD x = (decide (off ≤ x) && (addr p).getLsbD x)) :
    NextBit addr.test (L.bits * p + off) (L.bits * p + size)
      (foundFirst tmp (L.bits * p) size) := by
  have hmask : ∀ x < L.bits, (tmp &&& (BitVec.allOnes L.bits >>> (L.bits - size))).getLsbD x
      = (decide (off ≤ x ∧ x < size) && (addr p).getLsbD x) := by
    intro x hx
    rw [BitVec.getLsbD_and, BitVec.getLsbD_ushiftRight, BitVec.getLsbD_allOnes, htmp x hx]
    rw [show decide (L.bits - size + x < L.bits) = decide (x < size) by
      exact decide_eq_decide.mpr (by omega), Bool.decide_and]
    cases decide (off ≤ x) <;> cases decide (x < size) <;> simp
  obtain ⟨h1, h2⟩ := word_search addr (p := p) (L.bits * p + size) hsize.le hmask
  unfold foundFirst
  simp only
  split_ifs with h0
  · exact ⟨le_rfl, fun h => absurd h (lt_irrefl _), h2 h0⟩
  · exact h1 h0 le_rfl

lemma findWords_spec (rem : ℕ) (hrem : rem < L.bits) : ∀ k p : ℕ,
    NextBit addr.test (L.bits * p) (L.bits * (p + k) + rem) (findWords addr rem k p (L.bits * p))
  | 0, p => by
    rw [findWords]
    split_ifs with h0
    · subst h0
      exact ⟨le_rfl, fun h => absurd h (lt_irrefl _), fun n h1 h2 => by omega⟩
    · exact foundFirst_spec addr 0 hrem fun x _ => by simp
  | k + 1, p => by
    have hp : L.bits * (p + 1) = L.bits * p + L.bits := Nat.mul_succ L.bits p
    have hk : L.bits * (p + 1 + k) = L.bits * (p + (k + 1)) := by rw [add_right_comm, add_assoc]
    have hle : L.bits * (p + 1) ≤ L.bits * (p + 1 + k) := Nat.mul_le_mul_left _ (by omega)
    obtain ⟨h1, h2⟩ := word_search addr (L.bits * (p + (k + 1)) + rem) le_rfl
      (show ∀ x < L.bits, (addr p).getLsbD x = (decide (0 ≤ x ∧ x < L.bits) && (addr p).getLsbD x)
        from fun x hx => by simp [hx])
    rw [findWords]
    split_ifs with h0
    · exact h1 h0 (by omega)
    · have ih := findWords_spec rem hrem k (p + 1)
      rw [hk, Nat.mul_succ] at ih
      exact ih.skip (by omega) (h2 (by simpa using h0))

lemma findFirstBit_spec (size : ℕ) : NextBit addr.test 0 size (findFirstBit addr size) := by
  have h := findWords_spec addr _ (Nat.mod_lt size L.bits_pos) (size / L.bits) 0
  rwa [mul_zero, zero_add, Nat.div_add_mod] at h

lemma findWords_at (p : ℕ) (h : L.bits * p ≤ size) :
    NextBit addr.test (L.bits * p) size (findWords addr ((size - L.bits * p) % L.bits)
      ((size - L.bits * p) / L.bits) p (L.bits * p)) := by
  have hw := findWords_spec addr _ (Nat.mod_lt (size - L.bits * p) L.bits_pos)
    ((size - L.bits * p) / L.bits) p
  rwa [mul_add, add_assoc, Nat.div_add_mod, Nat.add_sub_of_le h] at hw

lemma findNextBit_spec (size offset : ℕ) :
    NextBit addr.test offset size (findNextBit addr size offset) := by
  have hpos := L.bits_pos
  have hdm := Nat.div_add_mod offset L.bits
  have hmod := Nat.mod_lt offset hpos
  unfold findNextBit
  simp only [mul_comm (offset / L.bits)]
  set p := offset / L.bits with hp
  set off := offset % L.bits with hoff
  by_cases hle : size ≤ offset
  · rw [if_pos hle]
    exact ⟨le_rfl, fun h => absurd h (lt_irrefl _), fun n h1 h2 => by omega⟩
  rw [if_neg hle]
  by_cases h0 : off = 0
  · rw [if_neg (not_not.mpr h0)]
    have h := findWords_at addr p (show L.bits * p ≤ size by omega)
    rwa [← hdm, h0, add_zero]
  rw [if_pos h0]
  have htmp : ∀ x < L.bits, (addr p &&& (BitVec.allOnes L.bits <<< off)).getLsbD x
      = (decide (off ≤ x) && (addr p).getLsbD x) := by
    intro x hx
    rw [BitVec.getLsbD_and, BitVec.getLsbD_shiftLeft, BitVec.getLsbD_allOnes, Bool.and_comm]
    by_cases h : off ≤ x
    · simp [h, hx, show x - off < L.bits by omega]
    · simp [h, show x < off by omega]
  have hnext : L.bits * (p + 1) = L.bits * p + L.bits := Nat.mul_succ L.bits p
  by_cases hs : size - L.bits * p < L.bits
  · rw [if_pos hs]
    have h := foundFirst_spec addr off hs htmp
    rwa [hdm, Nat.add_sub_of_le (by omega)] at h
  rw [if_neg hs]
  obtain ⟨h1, h2⟩ := word_search addr size le_rfl fun x hx => by
    rw [htmp x hx, show decide (off ≤ x) = decide (off ≤ x ∧ x < L.bits) by simp [hx]]
  rw [hdm] at h1 h2
  split_ifs with ht
  · exact h1 ht (by omega)
  · have h := findWords_at addr (p + 1) (show L.bits * (p + 1) ≤ size by omega)
    rw [hnext, ← Nat.sub_sub] at h
    exact h.skip (by omega) (h2 (by simpa using ht))

end

/-- The runs of set bits from `i` on among `k` positions, where `start` is the start of a run that
reaches up to `i`. -/
def runsFrom (bit : ℕ → Bool) : ℕ → ℕ → Option ℕ → List (ℕ × ℕ)
  | 0, _, none => []
  | 0, i, some a => [(a, i - 1)]
  | k + 1, i, none => runsFrom bit k (i + 1) (if bit i then some i else none)
  | k + 1, i, some a =>
    if bit i then runsFrom bit k (i + 1) (some a) else (a, i - 1) :: runsFrom bit k (i + 1) none

def runs (bit : ℕ → Bool) (n : ℕ) : List (ℕ × ℕ) := runsFrom bit n 0 none

def InRanges (rs : List (ℕ × ℕ)) (x : ℕ) : Prop := ∃ r ∈ rs, r.1 ≤ x ∧ x ≤ r.2

instance (rs : List (ℕ × ℕ)) (x : ℕ) : Decidable (InRanges rs x) := by
  unfold InRanges
  infer_instance

lemma inRanges_cons {r : ℕ × ℕ} :
    InRanges (r :: rs) x ↔ (r.1 ≤ x ∧ x ≤ r.2) ∨ InRanges rs x := by simp [InRanges]

lemma runsFrom_valid : ∀ {k i : ℕ} {start : Option ℕ}, (∀ a ∈ start, a < i) →
    ∀ r ∈ runsFrom bit k i start, r.1 ≤ r.2 ∧ r.2 < i + k
  | 0, i, none, _, r, hr => by simp [runsFrom] at hr
  | 0, i, some a, ha, r, hr => by
    have := ha a rfl
    obtain rfl : r = (a, i - 1) := by simpa [runsFrom] using hr
    constructor <;> simp only <;> omega
  | k + 1, i, none, _, r, hr => by
    rw [runsFrom] at hr
    have := runsFrom_valid (fun a ha => by split_ifs at ha <;> simp_all) r hr
    omega
  | k + 1, i, some a, ha, r, hr => by
    have hai := ha a rfl
    rw [runsFrom] at hr
    split_ifs at hr
    · have := runsFrom_valid (fun b hb => by simp_all; omega) r hr
      omega
    · rcases mem_cons.mp hr with rfl | hr
      · constructor <;> simp only <;> omega
      · have := runsFrom_valid (fun b hb => by simp at hb) r hr
        omega

lemma inRanges_runsFrom : ∀ {k i : ℕ} {start : Option ℕ}, (∀ a ∈ start, a < i) →
    (InRanges (runsFrom bit k i start) x
      ↔ (i ≤ x ∧ x < i + k ∧ bit x = true) ∨ ∃ a ∈ start, a ≤ x ∧ x < i)
  | 0, i, none, _ => by
    simp only [runsFrom, InRanges, not_mem_nil, false_and, exists_false, Option.mem_def,
      reduceCtorEq, or_false, false_iff]
    omega
  | 0, i, some a, ha => by
    have := ha a rfl
    simp only [runsFrom, InRanges, mem_singleton, exists_eq_left, Option.mem_def,
      Option.some.injEq, exists_eq_left']
    omega
  | k + 1, i, none, _ => by
    rw [runsFrom]
    cases hb : bit i with
    | false =>
      rw [if_neg (by simp), inRanges_runsFrom (by simp)]
      constructor
      · rintro (⟨h1, h2, h3⟩ | ⟨a, ha, -⟩)
        · exact .inl ⟨by omega, by omega, h3⟩
        · simp at ha
      rintro (⟨h1, h2, h3⟩ | ⟨a, ha, -⟩)
      · have : x ≠ i := by
          rintro rfl
          simp [hb] at h3
        exact .inl ⟨by omega, by omega, h3⟩
      · simp at ha
    | true =>
      rw [if_pos rfl, inRanges_runsFrom (by simp)]
      constructor
      · rintro (⟨h1, h2, h3⟩ | ⟨a, ha, h1, h2⟩)
        · exact .inl ⟨by omega, by omega, h3⟩
        · obtain rfl := Option.some.inj ha
          obtain rfl : x = i := by omega
          exact .inl ⟨le_rfl, by omega, hb⟩
      · rintro (⟨h1, h2, h3⟩ | ⟨a, ha, -⟩)
        · by_cases hx : x = i
          · exact .inr ⟨i, rfl, by omega, by omega⟩
          · exact .inl ⟨by omega, by omega, h3⟩
        · simp at ha
  | k + 1, i, some a, ha => by
    have hai := ha a rfl
    rw [runsFrom]
    cases hb : bit i with
    | false =>
      rw [if_neg (by simp), inRanges_cons, inRanges_runsFrom (by simp)]
      constructor
      · rintro (⟨h1, h2⟩ | ⟨h1, h2, h3⟩ | ⟨b, hb, -⟩)
        · exact .inr ⟨a, rfl, h1, by omega⟩
        · exact .inl ⟨by omega, by omega, h3⟩
        · simp at hb
      · rintro (⟨h1, h2, h3⟩ | ⟨b, hb, h1, h2⟩)
        · have : x ≠ i := by
            rintro rfl
            simp [hb] at h3
          exact .inr (.inl ⟨by omega, by omega, h3⟩)
        · obtain rfl := Option.some.inj hb
          exact .inl ⟨h1, by omega⟩
    | true =>
      rw [if_pos rfl, inRanges_runsFrom (by simp; omega)]
      constructor
      · rintro (⟨h1, h2, h3⟩ | ⟨b, hb', h1, h2⟩)
        · exact .inl ⟨by omega, by omega, h3⟩
        · by_cases hx : x = i
          · subst hx
            exact .inl ⟨le_rfl, by omega, hb⟩
          · exact .inr ⟨b, hb', h1, by omega⟩
      · rintro (⟨h1, h2, h3⟩ | ⟨b, hb', h1, h2⟩)
        · by_cases hx : x = i
          · exact .inr ⟨a, rfl, by omega, by omega⟩
          · exact .inl ⟨by omega, by omega, h3⟩
        · exact .inr ⟨b, hb', h1, by omega⟩

lemma inRanges_runs (hx : x < n) : InRanges (runs bit n) x ↔ bit x = true := by
  rw [runs, inRanges_runsFrom (by simp)]
  simp [hx]

lemma runsFrom_skip : ∀ (j : ℕ) {k i : ℕ}, (∀ x, i ≤ x → x < i + j → bit x = false) →
    runsFrom bit (j + k) i none = runsFrom bit k (i + j) none
  | 0, k, i, _ => by rw [zero_add, add_zero]
  | j + 1, k, i, h => by
    rw [add_right_comm, runsFrom, h i le_rfl (by omega), if_neg (by simp),
      runsFrom_skip j fun x h1 h2 => h x (by omega) (by omega)]
    congr 1
    omega

def runsAt (bit : ℕ → Bool) (n cur rbot : ℕ) : List (ℕ × ℕ) :=
  if cur < n then runsFrom bit (n - (cur + 1)) (cur + 1) (some rbot) else []

lemma runsFrom_next {lo : ℕ} (hlo : lo ≤ n) (h : NextBit bit lo n cur) :
    runsFrom bit (n - lo) lo none = runsAt bit n cur cur := by
  unfold runsAt
  split_ifs with hcur
  · obtain ⟨h1, h2⟩ := h.hit hcur
    have hs := runsFrom_skip (k := n - cur) (cur - lo) fun x hx1 hx2 => h.miss x hx1 (by omega)
    rw [show cur - lo + (n - cur) = n - lo by omega, Nat.add_sub_of_le h1] at hs
    rw [hs, show n - cur = (n - (cur + 1)) + 1 by omega, runsFrom, if_pos h2]
  · have hs := runsFrom_skip (k := 0) (n - lo) fun x hx1 hx2 => h.miss x hx1 (by omega)
    rw [add_zero] at hs
    rw [hs, runsFrom]

lemma runsAt_succ (hcur : cur + 1 < n) (hbit : bit (cur + 1) = true) :
    runsAt bit n cur rbot = runsAt bit n (cur + 1) rbot := by
  rw [runsAt, runsAt, if_pos (by omega), if_pos hcur,
    show n - (cur + 1) = n - (cur + 1 + 1) + 1 by omega, runsFrom, if_pos hbit]

lemma runsAt_close {cur' : ℕ} (hcur : cur < n) (h : NextBit bit (cur + 1) n cur')
    (hgap : n ≤ cur' ∨ cur + 1 < cur') :
    runsAt bit n cur rbot = (rbot, cur) :: runsAt bit n cur' cur' := by
  rw [← runsFrom_next (by omega) h, runsAt, if_pos hcur]
  cases hk : n - (cur + 1) with
  | zero => rw [runsFrom, runsFrom, Nat.add_sub_cancel]
  | succ k =>
    have hmiss := h.miss (cur + 1) le_rfl (by omega)
    rw [runsFrom, runsFrom, hmiss, if_neg (by simp), if_neg (by simp), Nat.add_sub_cancel]

section

def rangeText (r : ℕ × ℕ) : List UInt8 :=
  if r.1 = r.2 then numberDec r.1 else numberDec r.1 ++ 45 :: numberDec r.2

def listText : List (ℕ × ℕ) → List UInt8
  | [] => []
  | [r] => rangeText r
  | r :: r' :: rs => rangeText r ++ 44 :: listText (r' :: rs)

lemma numberDec_digits (n : ℕ) : ∃ ds : List ℕ, ds ≠ [] ∧ (∀ d ∈ ds, d < 10)
    ∧ ds.foldl (fun v d => v * 10 + d) 0 = n ∧ numberDec n = ds.map fun d =>
    48 + UInt8.ofNat d := by
  by_cases h0 : n = 0
  · exact ⟨[0], by simp, by simp, by simp [h0], by simp [numberDec, h0]⟩
  refine ⟨(Nat.digits 10 n).reverse, by simpa [Nat.digits_eq_nil_iff_eq_zero] using h0,
    fun d hd => ?_, ?_, ?_⟩
  · exact Nat.digits_lt_base (by norm_num) (mem_reverse.mp hd)
  · rw [foldl_reverse]
    conv_rhs => rw [← Nat.ofDigits_digits 10 n, Nat.ofDigits_eq_foldr]
    congr 1
    funext d v
    simp [mul_comm, add_comm]
  · simp [numberDec, h0]

lemma numberDec_ne_nil (n : ℕ) : numberDec n ≠ [] := by
  obtain ⟨ds, h0, -, -, he⟩ := numberDec_digits n
  simpa [he] using h0

lemma rangeText_ne_nil (r : ℕ × ℕ) : rangeText r ≠ [] := by
  unfold rangeText
  split_ifs <;> simp [numberDec_ne_nil]

lemma listText_ne_nil : ∀ {rs : List (ℕ × ℕ)}, rs ≠ [] → listText rs ≠ []
  | [r], _ => rangeText_ne_nil r
  | r :: r' :: rs, _ => by simp [listText]

lemma listText_append : ∀ {rs rs' : List (ℕ × ℕ)}, rs ≠ [] → rs' ≠ [] →
    listText (rs ++ rs') = listText rs ++ 44 :: listText rs'
  | [r], r' :: rs', _, _ => by simp [listText]
  | r :: s :: rs, r' :: rs', _, h => by
    have ih := listText_append (cons_ne_nil s rs) h
    simp only [cons_append] at ih ⊢
    rw [listText, ih, listText, append_assoc, cons_append]

lemma listText_length_le (rs rs' : List (ℕ × ℕ)) :
    (listText rs).length ≤ (listText (rs ++ rs')).length := by
  by_cases h : rs = []
  · simp [h, listText]
  by_cases h' : rs' = []
  · simp [h']
  · rw [listText_append h h', length_append]
    omega

lemma bscnlPut_eq {buflen : ℕ} {out text : List UInt8} (hbuf : buflen < 2 ^ 31)
    (h : (out ++ text).length < buflen) : bscnlPut buflen out text = out ++ text := by
  rw [length_append] at h
  rw [bscnlPut, if_pos hbuf, scnprintf, take_of_length_le (by omega)]

lemma bscnlEmit_eq {buflen rtop : ℕ} (hbuf : buflen < 2 ^ 31)
    (h : (listText (rs ++ [(rbot, rtop)])).length < buflen) :
    bscnlEmit buflen rbot rtop (listText rs) = listText (rs ++ [(rbot, rtop)]) := by
  have hput : ∀ out : List UInt8, (out ++ rangeText (rbot, rtop)).length < buflen →
      (if rbot = rtop then bscnlPut buflen out (numberDec rbot)
        else bscnlPut buflen out (numberDec rbot ++ 45 :: numberDec rtop))
      = out ++ rangeText (rbot, rtop) := by
    intro out ho
    unfold rangeText at ho ⊢
    split_ifs at ho ⊢ <;> exact bscnlPut_eq hbuf ho
  unfold bscnlEmit
  simp only
  by_cases h0 : rs = []
  · subst h0
    exact hput [] h
  have hne := listText_ne_nil h0
  have he : listText (rs ++ [(rbot, rtop)]) = listText rs ++ [44] ++ rangeText (rbot, rtop) := by
    rw [listText_append h0 (by simp), listText, append_cons]
  rw [he] at h ⊢
  have hcomma : (listText rs ++ [44]).length < buflen := by
    rw [length_append] at h
    omega
  rw [if_pos (length_pos_iff.mpr hne), bscnlPut_eq hbuf hcomma]
  exact hput _ h

variable (maskp : Bitmap L)

lemma bitmapScnlistprintf_eq {buflen : ℕ} (hbuf : buflen < 2 ^ 31)
    (h : (listText (runs maskp.test nmaskbits)).length < buflen) :
    bitmapScnlistprintf buflen maskp nmaskbits = some (listText (runs maskp.test nmaskbits)) := by
  set all := runs maskp.test nmaskbits with hall
  let Inv : ListState → Prop := fun s => s.cur ≤ nmaskbits ∧ ∃ rs, s.out = listText rs
    ∧ all = rs ++ runsAt maskp.test nmaskbits s.cur s.rbot
  have hstep : ∀ s, Inv s → (listPass maskp buflen nmaskbits s).Next Inv (· = listText all)
      (fun s => nmaskbits - s.cur) (nmaskbits - s.cur) := by
    rintro ⟨cur, rbot, out⟩ ⟨-, rs, rfl, hrs⟩
    have hnext := findNextBit_spec maskp nmaskbits (cur + 1)
    simp only [listPass] at hrs ⊢
    by_cases hcur : cur < nmaskbits
    · rw [if_pos hcur]
      set cur' := findNextBit maskp nmaskbits (cur + 1) with hcur'
      have hlt : nmaskbits - cur' < nmaskbits - cur := by
        by_cases hlt : cur' < nmaskbits
        · have := (hnext.hit hlt).1
          omega
        · omega
      by_cases hgap : nmaskbits ≤ cur' ∨ cur + 1 < cur'
      · rw [if_pos hgap]
        rw [runsAt_close hcur hnext hgap, append_cons] at hrs
        have hle := listText_length_le (rs ++ [(rbot, cur)]) (runsAt maskp.test nmaskbits cur' cur')
        rw [← hrs] at hle
        exact ⟨⟨hnext.le, _, bscnlEmit_eq hbuf (by omega), hrs⟩, hlt⟩
      · rw [if_neg hgap]
        obtain ⟨h1, h2⟩ := hnext.hit (by omega)
        obtain hc : cur' = cur + 1 := by omega
        rw [hc] at h2 hlt ⊢
        exact ⟨⟨by simp only; omega, rs, rfl, hrs.trans (by rw [runsAt_succ (by omega) h2])⟩, hlt⟩
    · rw [if_neg hcur]
      rw [runsAt, if_neg hcur, append_nil] at hrs
      exact congrArg listText hrs.symm
  have hfirst := findFirstBit_spec maskp nmaskbits
  have hstart := runsFrom_next (Nat.zero_le _) hfirst
  rw [bitmapScnlistprintf, if_neg (by omega)]
  obtain ⟨r, hr, rfl⟩ := Pass.run_of_next hstep (nmaskbits + 1)
    (s := ⟨findFirstBit maskp nmaskbits, findFirstBit maskp nmaskbits, []⟩)
    ⟨hfirst.le, [], rfl, hstart⟩ (by simp only; omega)
  exact hr

end

lemma charAt_cons (c : UInt8) (cp : List UInt8) : charAt (c :: cp) = c := rfl

lemma decDigit_spec : ∀ d < 10, isdigit (48 + UInt8.ofNat d) = true
    ∧ (48 + UInt8.ofNat d - 48).toNat = d := by decide

lemma isxdigit_of_isdigit (h : isdigit c = true) : isxdigit c = true := by simp [isxdigit, h]

def decimal (s : List UInt8) : ℕ := s.foldl (fun v c => v * 10 + (c - 48).toNat) 0

lemma isdigit_bounds (h : isdigit c = true) : 48 ≤ c.toNat ∧ c.toNat ≤ 57 := by
  simp only [isdigit, Bool.and_eq_true, decide_eq_true_eq, UInt8.le_iff_toNat_le] at h
  exact h

lemma strtoullLoop_span (htail : isdigit (charAt tail) = false) :
    ∀ (ds : List UInt8) (v : ℕ), (∀ c ∈ ds, isdigit c = true) →
      strtoullLoop 10 (ds ++ tail) (v % 2 ^ 64) =
        (ds.foldl (fun v c => v * 10 + (c - 48).toNat) v % 2 ^ 64, tail)
  | [], v, _ => by
    cases tail with
    | nil => rfl
    | cons c tail =>
      have hc : isdigit c = false := htail
      rw [nil_append, strtoullLoop, hc]
      simp only [Bool.false_eq_true, if_false, foldl_nil]
      rw [if_pos (Nat.le_add_left 10 _), ite_self]
  | c :: ds, v, h => by
    have hc := h c mem_cons_self
    have hlt : (c - 48).toNat < 10 := by
      obtain ⟨h1, h2⟩ := isdigit_bounds hc
      have hle : (48 : UInt8) ≤ c := UInt8.le_iff_toNat_le.mpr h1
      rw [UInt8.toNat_sub_of_le _ _ hle]
      show c.toNat - 48 < 10
      omega
    rw [cons_append, strtoullLoop, if_pos (isxdigit_of_isdigit hc)]
    simp only [hc, if_true]
    rw [if_neg (by omega), Nat.add_mod, Nat.mul_mod, Nat.mod_mod, ← Nat.mul_mod, ← Nat.add_mod,
      strtoullLoop_span htail ds _ fun e he => h e (mem_cons_of_mem _ he), foldl_cons]

lemma simpleStrtoul_span {ds : List UInt8} (hds : ∀ c ∈ ds, isdigit c = true)
    (htail : isdigit (charAt tail) = false) :
    simpleStrtoul L (ds ++ tail) 10 = (decimal ds % 2 ^ 32, tail) := by
  have hloop := strtoullLoop_span htail ds 0 hds
  rw [Nat.zero_mod] at hloop
  have hdvd : 2 ^ 32 ∣ 2 ^ L.bits := pow_dvd_pow 2 L.bits_ge
  have hdvd' : 2 ^ 32 ∣ 2 ^ 64 := pow_dvd_pow 2 (by omega)
  simp only [simpleStrtoul, simpleStrtoull]
  rw [if_neg (show (10 : ℕ) ≠ 0 by omega), if_neg (by omega), hloop]
  simp only
  rw [Nat.mod_mod_of_dvd _ hdvd, Nat.mod_mod_of_dvd _ hdvd', decimal]

lemma decimal_numberDec (n : ℕ) : decimal (numberDec n) = n := by
  obtain ⟨ds, -, hds, hn, he⟩ := numberDec_digits n
  rw [decimal, he, foldl_map]
  refine Eq.trans (foldl_ext _ _ _ fun v d hd => ?_) hn
  rw [(decDigit_spec d (hds d hd)).2]

lemma numberDec_isdigit (n : ℕ) : ∀ c ∈ numberDec n, isdigit c = true := by
  obtain ⟨ds, -, hds, -, he⟩ := numberDec_digits n
  intro c hc
  rw [he] at hc
  obtain ⟨d, hd, rfl⟩ := mem_map.mp hc
  exact (decDigit_spec d (hds d hd)).1

lemma simpleStrtoul_numberDec (htail : isdigit (charAt tail) = false)
    (hn : n < 2 ^ 32) : simpleStrtoul L (numberDec n ++ tail) 10 = (n, tail) := by
  rw [simpleStrtoul_span (numberDec_isdigit n) htail, decimal_numberDec, Nat.mod_eq_of_lt hn]

lemma isdigit_numberDec (n : ℕ) (tail : List UInt8) :
    isdigit (charAt (numberDec n ++ tail)) = true := by
  obtain ⟨ds, h0, hds, -, he⟩ := numberDec_digits n
  cases ds with
  | nil => exact absurd rfl h0
  | cons d ds =>
    rw [he]
    exact (decDigit_spec d (hds d mem_cons_self)).1

lemma isdigit_listText (h : rs ≠ []) :
    isdigit (charAt (listText rs)) = true := by
  have hr : ∀ (r : ℕ × ℕ) (tail : List UInt8), isdigit (charAt (rangeText r ++ tail)) = true := by
    intro r tail
    unfold rangeText
    split_ifs
    · exact isdigit_numberDec _ _
    · rw [append_assoc]
      exact isdigit_numberDec _ _
  match rs with
  | [r] => simpa [listText] using hr r []
  | r :: r' :: rs => exact hr r _

lemma Bitmap.set_test (b : Bitmap L) (n x : ℕ) :
    (b.set n).test x = (decide (x = n) || b.test x) := by
  have hpos := L.bits_pos
  have hx := Nat.div_add_mod x L.bits
  have hn := Nat.div_add_mod n L.bits
  unfold Bitmap.set Bitmap.test
  by_cases hw : x / L.bits = n / L.bits
  · rw [hw, Function.update_self, BitVec.getLsbD_or, BitVec.getLsbD_twoPow, Bool.or_comm]
    congr 1
    rw [decide_eq_true (Nat.mod_lt n hpos), Bool.true_and]
    refine decide_eq_decide.mpr ⟨fun h => ?_, fun h => by rw [h]⟩
    rw [← hx, ← hn, hw, h]
  · rw [Function.update_of_ne hw, decide_eq_false (by rintro rfl; exact hw rfl), Bool.false_or]

lemma setRange_test : ∀ (k a : ℕ) (b : Bitmap L) (x : ℕ),
    (setRange k a b).test x = (decide (a ≤ x ∧ x < a + k) || b.test x)
  | 0, a, b, x => by rw [setRange, decide_eq_false (by omega), Bool.false_or]
  | k + 1, a, b, x => by
    rw [setRange, setRange_test, Bitmap.set_test, ← Bool.or_assoc, ← Bool.decide_or]
    congr 1
    exact decide_eq_decide.mpr (by omega)

lemma parselistPass_range {r : ℕ × ℕ} (maskp : Bitmap L)
    (hn : nmaskbits < 2 ^ 31) (hr : r.1 ≤ r.2) (hlt : r.2 < nmaskbits)
    (htail : tail = [] ∨ charAt tail = 44) :
    parselistPass nmaskbits (rangeText r ++ tail, maskp)
      = (let bp := if charAt tail = 44 then tail.tail else tail
        if charAt bp ≠ 0 ∧ charAt bp ≠ 10 then .again (bp, setRange (r.2 + 1 - r.1) r.1 maskp)
        else .leave (0, setRange (r.2 + 1 - r.1) r.1 maskp)) := by
  obtain ⟨a, b⟩ := r
  simp only at hr hlt ⊢
  have hx : isdigit (charAt tail) = false ∧ charAt tail ≠ 45 := by
    rcases htail with rfl | h
    · decide
    · rw [h]
      decide
  by_cases hab : a = b
  · subst hab
    have ht : rangeText (a, a) = numberDec a := if_pos rfl
    simp only [parselistPass, ht, isdigit_numberDec, simpleStrtoul_numberDec (L := L) hx.1
      (show a < 2 ^ 32 by omega), rangeEnd, if_neg hx.2]
    simp [show ¬ nmaskbits ≤ a by omega]
  · have ht : rangeText (a, b) ++ tail = numberDec a ++ 45 :: (numberDec b ++ tail) := by
      simp [rangeText, hab]
    have h45 : isdigit (charAt (45 :: (numberDec b ++ tail))) = false := by
      rw [charAt_cons]
      decide
    simp only [parselistPass, ht, isdigit_numberDec, simpleStrtoul_numberDec (L := L) h45
      (show a < 2 ^ 32 by omega), rangeEnd, charAt_cons, tail_cons,
      simpleStrtoul_numberDec (L := L) hx.1 (show b < 2 ^ 32 by omega)]
    simp [hr, show ¬ nmaskbits ≤ b by omega]

lemma bitmapParselist_listText (dst : Bitmap L) (h0 : rs ≠ [])
    (hn : nmaskbits < 2 ^ 31) (hrs : ∀ r ∈ rs, r.1 ≤ r.2 ∧ r.2 < nmaskbits) :
    ∃ b, bitmapParselist (listText rs) dst nmaskbits = some (0, b)
      ∧ ∀ x < nmaskbits, b.test x = decide (InRanges rs x) := by
  let Inv : List UInt8 × Bitmap L → Prop := fun s => ∃ left, s.1 = listText left ∧ left ≠ []
    ∧ (∀ r ∈ left, r.1 ≤ r.2 ∧ r.2 < nmaskbits)
    ∧ ∀ x < nmaskbits, (s.2.test x = true ∨ InRanges left x) ↔ InRanges rs x
  let Q : ℤ × Bitmap L → Prop :=
    fun r => r.1 = 0 ∧ ∀ x < nmaskbits, r.2.test x = decide (InRanges rs x)
  have hset : ∀ (r : ℕ × ℕ) (left : List (ℕ × ℕ)) (b : Bitmap L), r.1 ≤ r.2 →
      (∀ x < nmaskbits, (b.test x = true ∨ InRanges (r :: left) x) ↔ InRanges rs x) →
      ∀ x < nmaskbits, ((setRange (r.2 + 1 - r.1) r.1 b).test x = true ∨ InRanges left x)
        ↔ InRanges rs x := by
    intro r left b hr hb x hx
    rw [← hb x hx, setRange_test, inRanges_cons, Bool.or_eq_true, decide_eq_true_eq,
      show x < r.1 + (r.2 + 1 - r.1) ↔ x ≤ r.2 by omega]
    tauto
  have hstep : ∀ s, Inv s →
      (parselistPass nmaskbits s).Next Inv Q (fun s => s.1.length) s.1.length := by
    rintro ⟨bp, b⟩ ⟨left, rfl, hne, hval, hb⟩
    match left with
    | [r] =>
      obtain ⟨h1, h2⟩ := hval r mem_cons_self
      have hp := parselistPass_range b hn h1 h2 (.inl rfl)
      rw [append_nil] at hp
      simp only [listText]
      rw [hp]
      refine ⟨rfl, fun x hx => ?_⟩
      have := hset r [] b h1 hb x hx
      rw [Bool.eq_iff_iff, decide_eq_true_eq, ← this]
      simp [InRanges]
    | r :: r' :: left =>
      obtain ⟨h1, h2⟩ := hval r mem_cons_self
      have hp := parselistPass_range b hn h1 h2 (.inr (charAt_cons 44 (listText (r' :: left))))
      have hd : isdigit (charAt (listText (r' :: left))) = true := isdigit_listText (by simp)
      have hne : charAt (listText (r' :: left)) ≠ 0 ∧ charAt (listText (r' :: left)) ≠ 10 := by
        constructor <;>
        · intro he
          rw [he] at hd
          exact absurd hd (by decide)
      rw [listText, hp]
      simp only [charAt_cons, if_true, tail_cons]
      rw [if_pos hne]
      refine ⟨⟨r' :: left, rfl, by simp, fun s hs => hval s (mem_cons_of_mem _ hs),
        hset r _ b h1 hb⟩, ?_⟩
      simp only [length_append, length_cons]
      omega
  obtain ⟨r, hr, hq1, hq2⟩ := Pass.run_of_next hstep ((listText rs).length + 1)
    (s := (listText rs, bitmapZero dst nmaskbits)) ⟨rs, rfl, h0, hrs, fun x hx => by
      simp [bitmapZero_test dst hx]⟩ (by simp only; omega)
  exact ⟨r.2, by rw [bitmapParselist, hr, ← hq1], hq2⟩

end LinuxKernel.Lib
