import LinuxKernel.Proofs.Filter

/-!
# The bytes read by the loads of netlink attributes

`nla_find` reads headers that end inside the area it searches. The loads do not check that this area
is inside the packet: the length of a packet shorter than a header wraps round, and the test of
`nla_len` has its operands the wrong way round.
-/

namespace LinuxKernel.Net

variable {skb : SkBuff} {m : Machine} {mem : ℤ → BitVec 8} {attrtype len : ℤ} {A : BitVec 32}

section

variable (m : Machine) (mem : ℤ → BitVec 8) {mem' : ℤ → BitVec 8} {attrtype : ℤ} {A X : BitVec 32}

/-- The bytes that a pass of `nla_find` reads: `nla_len` if a header fits, and `nla_type` if the
attribute fits. -/
def nlaPassReads (s : ℤ × ℤ) : List ℤ :=
  if s.2 ≥ 4 then
    if nlaOk m mem s.1 s.2 then [s.1, s.1 + 1, s.1 + 2, s.1 + 3] else [s.1, s.1 + 1]
  else []

def nlaFindReads (attrtype : ℤ) : ℕ → ℤ × ℤ → List ℤ
  | 0, _ => []
  | n + 1, s => nlaPassReads m mem s ++ match nlaFindPass m mem attrtype s with
    | .again s' => nlaFindReads attrtype n s'
    | .leave _ => []

def adNlattrReads (skb : SkBuff) (A X : BitVec 32) : List ℤ :=
  if skb.isNonlinear || nlaBeyond m skb A then []
  else nlaFindReads m skb.mem X.toInt ((skb.len - A).toInt.toNat + 1) (A.toNat, (skb.len - A).toInt)

/-- The bytes that `SKF_AD_NLATTR_NEST` reads: `nla_len` for the test, and those of the search. -/
def adNlattrNestReads (skb : SkBuff) (A X : BitVec 32) : List ℤ :=
  if skb.isNonlinear || nlaBeyond m skb A then []
  else [(A.toNat : ℤ), A.toNat + 1] ++ if (A - skb.len).toNat < nlaLen m skb.mem A.toNat then []
    else nlaFindReads m skb.mem X.toInt ((nlaLen m skb.mem A.toNat - 4 : ℤ).toNat + 1)
      (A.toNat + 4, nlaLen m skb.mem A.toNat - 4)

variable {m mem}

lemma nlaFindPass_congr {s : ℤ × ℤ} (h : ∀ i ∈ nlaPassReads m mem s, mem' i = mem i) :
    nlaFindPass m mem' attrtype s = nlaFindPass m mem attrtype s := by
  obtain ⟨nla, rem⟩ := s
  by_cases hrem : rem ≥ 4
  · rw [nlaPassReads, if_pos hrem] at h
    have hlen : nlaLen m mem' nla = nlaLen m mem nla := by
      rw [nlaLen, nlaLen, u16At, u16At, h nla (by split_ifs <;> simp),
        h (nla + 1) (by split_ifs <;> simp)]
    have hok : nlaOk m mem' nla rem = nlaOk m mem nla rem := by rw [nlaOk, nlaOk, hlen]
    simp only [nlaFindPass, hok, hlen]
    by_cases hfits : nlaOk m mem nla rem = true
    · rw [if_pos hfits] at h
      have htype : nlaType m mem' nla = nlaType m mem nla := by
        rw [nlaType, nlaType, u16At, u16At, h (nla + 2) (by simp),
          show nla + 2 + 1 = nla + 3 by ring, h (nla + 3) (by simp)]
      rw [htype]
    · rw [if_neg hfits, if_neg hfits]
  · have hnok : ∀ mem : ℤ → BitVec 8, nlaOk m mem nla rem = false := fun mem => by
      simp only [nlaOk, hrem, decide_false, Bool.false_and]
    simp only [nlaFindPass, hnok, Bool.false_eq_true, if_false]

lemma run_nlaFindPass_congr (n : ℕ) (s : ℤ × ℤ)
    (h : ∀ i ∈ nlaFindReads m mem attrtype n s, mem' i = mem i) :
    Pass.run (nlaFindPass m mem' attrtype) n s = Pass.run (nlaFindPass m mem attrtype) n s := by
  induction n generalizing s with
  | zero => rw [Pass.run, Pass.run]
  | succ n ih =>
    rw [nlaFindReads] at h
    have hpass : nlaFindPass m mem' attrtype s = nlaFindPass m mem attrtype s :=
      nlaFindPass_congr fun i hi => h i (List.mem_append_left _ hi)
    rw [Pass.run, Pass.run, hpass]
    cases hs : nlaFindPass m mem attrtype s with
    | leave r => rfl
    | again s' =>
      rw [hs] at h
      exact ih s' fun i hi => h i (List.mem_append_right _ hi)

lemma adNlattr_congr (h : ∀ i ∈ adNlattrReads m skb A X, mem' i = skb.mem i) :
    adNlattr m { skb with mem := mem' } A X = adNlattr m skb A X := by
  have hsame : ({ skb with mem := mem' } : SkBuff).isNonlinear = skb.isNonlinear := rfl
  have hsame' : nlaBeyond m { skb with mem := mem' } A = nlaBeyond m skb A := rfl
  rw [adNlattrReads] at h
  rw [adNlattr, adNlattr, hsame, hsame']
  by_cases hlin : skb.isNonlinear = true
  · rw [if_pos hlin, if_pos hlin]
  by_cases hb : nlaBeyond m skb A = true
  · rw [if_neg hlin, if_neg hlin, if_pos hb, if_pos hb]
  · rw [if_neg (by simp [hlin, hb])] at h
    rw [if_neg hlin, if_neg hlin, if_neg hb, if_neg hb]
    exact congrArg nlaOffset (run_nlaFindPass_congr _ _ h)

lemma adNlattrNest_congr (h : ∀ i ∈ adNlattrNestReads m skb A X, mem' i = skb.mem i) :
    adNlattrNest m { skb with mem := mem' } A X = adNlattrNest m skb A X := by
  have hsame : ({ skb with mem := mem' } : SkBuff).isNonlinear = skb.isNonlinear := rfl
  have hsame' : nlaBeyond m { skb with mem := mem' } A = nlaBeyond m skb A := rfl
  rw [adNlattrNestReads] at h
  rw [adNlattrNest, adNlattrNest, hsame, hsame']
  by_cases hlin : skb.isNonlinear = true
  · rw [if_pos hlin, if_pos hlin]
  by_cases hb : nlaBeyond m skb A = true
  · rw [if_neg hlin, if_neg hlin, if_pos hb, if_pos hb]
  rw [if_neg (by simp [hlin, hb])] at h
  rw [if_neg hlin, if_neg hlin, if_neg hb, if_neg hb]
  have hlen : nlaLen m mem' A.toNat = nlaLen m skb.mem A.toNat := by
    rw [nlaLen, nlaLen, u16At, u16At, h _ (by simp), h (A.toNat + 1) (by simp)]
  simp only [hlen]
  split_ifs with htest
  · rfl
  · rw [if_neg htest] at h
    rw [nlaFindNested, nlaFindNested, hlen]
    exact congrArg nlaOffset
      (run_nlaFindPass_congr _ _ fun i hi => h i (List.mem_append_right _ hi))

end

/-- The area that is searched ends inside the packet. -/
def InArea (len : ℤ) (s : ℤ × ℤ) : Prop := 0 ≤ s.1 ∧ s.1 + s.2 ≤ len

lemma InArea.pass {s s' : ℤ × ℤ} (h : InArea len s)
    (hs : nlaFindPass m mem attrtype s = .again s') : InArea len s' := by
  obtain ⟨nla, rem⟩ := s
  obtain ⟨h0, hle⟩ := h
  simp only [nlaFindPass] at hs
  split_ifs at hs
  cases hs
  exact ⟨by simp only at h0 ⊢; omega, by simp only at hle ⊢; omega⟩

lemma InArea.reads {s : ℤ × ℤ} (h : InArea len s) :
    ∀ i ∈ nlaPassReads m mem s, 0 ≤ i ∧ i < len := by
  obtain ⟨h0, hle⟩ := h
  intro i hi
  rw [nlaPassReads] at hi
  split_ifs at hi <;> simp only [List.mem_cons, List.not_mem_nil, or_false] at hi <;> omega

lemma InArea.found {s : ℤ × ℤ} {nla : ℤ} (h : InArea len s)
    (hs : nlaFindPass m mem attrtype s = .leave (some nla)) : 0 ≤ nla ∧ nla + 4 ≤ len := by
  obtain ⟨pos, rem⟩ := s
  obtain ⟨h0, hle⟩ := h
  simp only [nlaFindPass] at hs
  split_ifs at hs with hok
  · cases hs
    simp only [nlaOk, Bool.and_eq_true, decide_eq_true_eq] at hok
    exact ⟨h0, by omega⟩
  · cases hs

lemma nlaFindReads_inside : ∀ (n : ℕ) {s : ℤ × ℤ}, InArea len s →
    ∀ i ∈ nlaFindReads m mem attrtype n s, 0 ≤ i ∧ i < len
  | 0, _, _, i, hi => by cases hi
  | n + 1, s, h, i, hi => by
    rw [nlaFindReads, List.mem_append] at hi
    rcases hi with hi | hi
    · exact h.reads i hi
    cases hs : nlaFindPass m mem attrtype s with
    | again s' =>
      rw [hs] at hi
      exact nlaFindReads_inside n (h.pass hs) i hi
    | leave r =>
      rw [hs] at hi
      cases hi

lemma run_found_inside : ∀ (n : ℕ) {s : ℤ × ℤ} {nla : ℤ}, InArea len s →
    Pass.run (nlaFindPass m mem attrtype) n s = some (some nla) → 0 ≤ nla ∧ nla + 4 ≤ len
  | n + 1, s, nla, h, hr => by
    rw [Pass.run] at hr
    cases hs : nlaFindPass m mem attrtype s with
    | again s' =>
      rw [hs] at hr
      exact run_found_inside n (h.pass hs) hr
    | leave r =>
      rw [hs] at hr
      obtain rfl := Option.some.inj hr
      exact h.found hs

lemma nlaOffset_inside {head rem : ℤ} (h : InArea skb.len.toNat (head, rem)) :
    ∃ A', nlaOffset (nlaFind m mem head rem attrtype) = .ok A' ∧
      (A' ≠ 0 → A'.toNat + 4 ≤ skb.len.toNat) := by
  obtain ⟨r, hr⟩ := nlaFind_returns (m := m) mem head rem attrtype
  cases r with
  | none => exact ⟨0, by rw [hr]; rfl, fun hne => absurd rfl hne⟩
  | some nla =>
    obtain ⟨h0, h4⟩ := run_found_inside _ h hr
    refine ⟨BitVec.ofInt 32 nla, by rw [hr]; rfl, fun _ => ?_⟩
    rw [BitVec.toNat_ofInt, Int.emod_eq_of_lt h0 (by omega)]
    omega

lemma le_of_not_nlaBeyond (hlen : 4 ≤ skb.len.toNat) (h : nlaBeyond m skb A = false) :
    A.toNat + 4 ≤ skb.len.toNat := by
  have hlt : skb.len.toNat < 2 ^ m.long.bits := skb.len.isLt.trans_le m.long.two_pow_bits_ge
  rw [nlaBeyond, subMod_of_le hlen hlt, decide_eq_false_iff_not] at h
  omega

/-- `load`, which reads the bytes `reads`, reads inside the packet, so that no other memory matters,
and returns 0 from the filter or leaves in `A` 0 or the offset of a header inside. -/
structure LoadInside (skb : SkBuff) (reads : List ℤ) (load : SkBuff → Except Stop (BitVec 32)) :
    Prop where
  reads_lt : ∀ i ∈ reads, 0 ≤ i ∧ i < skb.len.toNat
  depends : ∀ mem', (∀ i : ℤ, 0 ≤ i → i < skb.len.toNat → mem' i = skb.mem i) →
    load { skb with mem := mem' } = load skb
  result : load skb = .error .drop ∨
    ∃ A', load skb = .ok A' ∧ (A' ≠ 0 → A'.toNat + 4 ≤ skb.len.toNat)

lemma adNlattr_reads (hlin : skb.isNonlinear = false) (hlen : 4 ≤ skb.len.toNat)
    (A X : BitVec 32) :
    (∀ i ∈ adNlattrReads m skb A X, 0 ≤ i ∧ i < skb.len.toNat) ∧
      (adNlattr m skb A X = .error .drop ∨
        ∃ A', adNlattr m skb A X = .ok A' ∧ (A' ≠ 0 → A'.toNat + 4 ≤ skb.len.toNat)) := by
  rw [adNlattrReads, adNlattr, hlin, Bool.false_or, if_neg Bool.false_ne_true]
  cases hb : nlaBeyond m skb A with
  | true => exact ⟨fun i hi => (List.not_mem_nil hi).elim, .inl rfl⟩
  | false =>
    rw [if_neg Bool.false_ne_true, if_neg Bool.false_ne_true]
    have hA := le_of_not_nlaBeyond hlen hb
    have harea : InArea skb.len.toNat ((A.toNat : ℤ), (skb.len - A).toInt) := by
      have hle : (skb.len - A).toInt ≤ (skb.len - A).toNat := by
        rw [BitVec.toInt_eq_toNat_cond]
        split_ifs <;> omega
      have hsub : (skb.len - A).toNat = skb.len.toNat - A.toNat :=
        BitVec.toNat_sub_of_le (BitVec.le_def.mpr (by omega))
      exact ⟨by simp only; omega, by simp only; omega⟩
    exact ⟨nlaFindReads_inside _ harea, .inr (nlaOffset_inside harea)⟩

lemma adNlattrNest_reads (hlin : skb.isNonlinear = false) (hlen : 4 ≤ skb.len.toNat)
    (A X : BitVec 32) (hnest : A.toNat + 4 ≤ skb.len.toNat →
      A.toNat + nlaLen m skb.mem A.toNat ≤ skb.len.toNat) :
    (∀ i ∈ adNlattrNestReads m skb A X, 0 ≤ i ∧ i < skb.len.toNat) ∧
      (adNlattrNest m skb A X = .error .drop ∨
        ∃ A', adNlattrNest m skb A X = .ok A' ∧ (A' ≠ 0 → A'.toNat + 4 ≤ skb.len.toNat)) := by
  rw [adNlattrNestReads, adNlattrNest, hlin, Bool.false_or, if_neg Bool.false_ne_true]
  cases hb : nlaBeyond m skb A with
  | true => exact ⟨fun i hi => (List.not_mem_nil hi).elim, .inl rfl⟩
  | false =>
    rw [if_neg Bool.false_ne_true, if_neg Bool.false_ne_true]
    have hA := le_of_not_nlaBeyond hlen hb
    have hattr := hnest hA
    have harea : InArea skb.len.toNat ((A.toNat : ℤ) + 4, (nlaLen m skb.mem A.toNat : ℤ) - 4) :=
      ⟨by simp only; omega, by simp only; omega⟩
    refine ⟨fun i hi => ?_, ?_⟩
    · rw [List.mem_append] at hi
      rcases hi with hi | hi
      · simp only [List.mem_cons, List.not_mem_nil, or_false] at hi
        omega
      · split_ifs at hi
        · cases hi
        · exact nlaFindReads_inside _ harea i hi
    · split_ifs
      · exact .inl rfl
      · exact .inr (nlaOffset_inside harea)

/-- A packet of the given length with the attribute `len` at 0, holding an attribute without payload
of type 1. -/
def nestSkb (len : BitVec 32) (nlaLen : BitVec 8) : SkBuff where
  mem i := if i = 0 then nlaLen else if i = 4 then 4 else if i = 6 then 1 else 0
  frag _ := 0
  len := len
  dataLen := 0
  head := 0
  tail := len.toNat
  networkHeader := 0
  macHeader := 0
  protocol := 0
  pktType := 0
  dev := none
  mark := 0
  queueMapping := 0

end LinuxKernel.Net
