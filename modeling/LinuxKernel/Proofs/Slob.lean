import LinuxKernel.Slob

/-!
# A SLOB page partitions its memory

The free list of a page is a chain of encoded blocks from `sp->free` to the page end (`Chain`). Each
write stays inside the block it is the header of, so the rest of the chain is as before, and what
the calls do is said on the list of blocks.
-/

namespace LinuxKernel.Slob

open Function List

variable {c : Conf} {p : SlobPage} {live : List Live} {mem mem' : Mem}
  {s n next x a e free cur avail units delta b k m nx q : ℤ} {prev : Option ℤ} {align size : ℕ}
  {blk : Live}

/-- The header of a free block of `n` units. -/
def Enc (mem : Mem) (s n next : ℤ) : Prop :=
  if 1 < n then mem s = n ∧ mem (s + 1) = next else mem s = -next

lemma Enc.slobUnits_eq (h : Enc mem s n next) (hn : 0 < n) (hnext : 0 < next) :
    slobUnits mem s = n := by
  unfold Enc at h
  unfold slobUnits
  split_ifs at h with h1
  · rw [h.1, if_pos hn]
  · rw [h, if_neg (by omega)]
    omega

lemma Enc.slobNext_eq (h : Enc mem s n next) (hnext : 0 < next) : slobNext mem s = next := by
  unfold Enc at h
  unfold slobNext
  split_ifs at h with h1
  · rw [h.1, if_neg (by omega), h.2]
  · rw [h, if_pos (by omega), Int.neg_neg]

lemma enc_setSlob (mem : Mem) (s n next : ℤ) : Enc (setSlob mem s n next) s n next := by
  unfold Enc setSlob
  split_ifs
  · refine ⟨?_, update_self _ _ _⟩
    rw [update_of_ne (by omega), update_self]
  · exact update_self _ _ _

lemma setSlob_outside (hn : 0 < n) (h : x < s ∨ s + n ≤ x) : setSlob mem s n next x = mem x := by
  unfold setSlob
  split_ifs
  · rw [update_of_ne (by omega), update_of_ne (by omega)]
  · rw [update_of_ne (by omega)]

lemma Enc.frame (h : Enc mem s n next) (hn : 0 < n)
    (heq : ∀ x, s ≤ x → x < s + n → mem' x = mem x) : Enc mem' s n next := by
  unfold Enc at h ⊢
  split_ifs at h ⊢
  · rw [heq s (by omega) (by omega), heq (s + 1) (by omega) (by omega)]
    exact h
  · rw [heq s (by omega) (by omega)]
    exact h

abbrev Blk := ℤ × ℤ

def Before (a b : Blk) : Prop := a.1 + a.2 ≤ b.1

def Apart (a b : Blk) : Prop := a.1 + a.2 < b.1

def InBlocks (l : List Blk) (x : ℤ) : Prop := ∃ blk ∈ l, blk.1 ≤ x ∧ x < blk.1 + blk.2

def Chain (mem : Mem) : ℤ → List Blk → ℤ → Prop
  | a, [], e => a = e
  | a, blk :: l, e =>
    a = blk.1 ∧ 0 < blk.2 ∧ ∃ next, 0 < next ∧ Enc mem blk.1 blk.2 next ∧ Chain mem next l e

variable {l l₁ l₂ : List Blk}

@[simp] lemma inBlocks_nil : ¬ InBlocks [] x := by simp [InBlocks]

@[simp] lemma inBlocks_cons {blk : Blk} :
    InBlocks (blk :: l) x ↔ (blk.1 ≤ x ∧ x < blk.1 + blk.2) ∨ InBlocks l x := by simp [InBlocks]

@[simp] lemma inBlocks_append : InBlocks (l₁ ++ l₂) x ↔ InBlocks l₁ x ∨ InBlocks l₂ x := by
  simp only [InBlocks, mem_append, or_and_right, exists_or]

lemma chain_append : ∀ {l₁ : List Blk} {a : ℤ},
    Chain mem a (l₁ ++ l₂) e ↔ ∃ m, Chain mem a l₁ m ∧ Chain mem m l₂ e
  | [], a => by simp [Chain]
  | blk :: l₁, a => by
    simp only [cons_append, Chain, @chain_append l₁]
    constructor
    · rintro ⟨ha, hpos, next, hnext, henc, m, h1, h2⟩
      exact ⟨m, ⟨ha, hpos, next, hnext, henc, h1⟩, h2⟩
    · rintro ⟨m, ⟨ha, hpos, next, hnext, henc, h1⟩, h2⟩
      exact ⟨ha, hpos, next, hnext, henc, m, h1, h2⟩

lemma Chain.frame : ∀ {l : List Blk} {a : ℤ}, Chain mem a l e →
    (∀ x, InBlocks l x → mem' x = mem x) → Chain mem' a l e
  | [], _, h, _ => h
  | blk :: l, a, ⟨ha, hpos, next, hnext, henc, h⟩, heq => by
    refine ⟨ha, hpos, next, hnext, henc.frame hpos fun x h1 h2 => heq x ?_,
      h.frame fun x hx => heq x ?_⟩
    · exact inBlocks_cons.2 (.inl ⟨h1, h2⟩)
    · exact inBlocks_cons.2 (.inr hx)

lemma inBlocks_lt (h : ∀ blk ∈ l, blk.1 + blk.2 ≤ cur) (hx : InBlocks l x) :
    x < cur := by
  obtain ⟨blk, hmem, -, hlt⟩ := hx
  have := h blk hmem
  omega

lemma le_of_inBlocks (h : ∀ blk ∈ l, cur ≤ blk.1) (hx : InBlocks l x) : cur ≤ x := by
  obtain ⟨blk, hmem, hle, -⟩ := hx
  have := h blk hmem
  omega

variable {pre rest : List Blk}

lemma linkFrom_spec (hp : prev = pre.getLast?.map Prod.fst) (hc : Chain mem free pre cur)
    (hd : pre.Pairwise Before) (hnext : 0 < next) :
    Chain (linkFrom mem free prev next).1 (linkFrom mem free prev next).2 pre next
      ∧ ∀ x, ¬ InBlocks pre x → (linkFrom mem free prev next).1 x = mem x := by
  rcases eq_nil_or_concat pre with rfl | ⟨pre, ⟨q, k⟩, rfl⟩
  · subst hp
    exact ⟨rfl, fun _ _ => rfl⟩
  rw [concat_eq_append] at *
  rw [getLast?_concat] at hp
  subst hp
  obtain ⟨m, h1, hm, hk, nx, hnx, henc, -⟩ := chain_append.1 hc
  simp only at hm hk henc
  subst hm
  have hunits := henc.slobUnits_eq hk hnx
  simp only [Option.map_some, linkFrom, hunits]
  have hbefore : ∀ blk ∈ pre, blk.1 + blk.2 ≤ m := fun blk hblk =>
    (pairwise_append.1 hd).2.2 blk hblk _ (mem_singleton_self _)
  refine ⟨chain_append.2
    ⟨m, h1.frame fun x hx => ?_, rfl, hk, next, hnext, enc_setSlob _ _ _ _, rfl⟩, fun x hx => ?_⟩
  · exact setSlob_outside hk (.inl (inBlocks_lt hbefore hx))
  · refine setSlob_outside hk ?_
    simp only [inBlocks_append, inBlocks_cons, inBlocks_nil, or_false, not_or] at hx
    omega

def tailOf (cur avail units : ℤ) : List Blk :=
  if avail = units then [] else [(cur + units, avail - units)]

lemma slobCut_spec (hp : prev = pre.getLast?.map Prod.fst) (hc : Chain mem free pre cur)
    (henc : Enc mem cur avail next) (hnext : 0 < next) (hrest : Chain mem next rest e)
    (hu : 0 < units) (hle : units ≤ avail) (hcur : 0 ≤ cur)
    (hd : (pre ++ (cur, avail) :: rest).Pairwise Before) :
    Chain (slobCut mem free prev cur avail units).1 (slobCut mem free prev cur avail units).2
      (pre ++ (tailOf cur avail units ++ rest)) e := by
  obtain ⟨hpre, hcons, hacross⟩ := pairwise_append.1 hd
  have hafter : ∀ blk ∈ rest, cur + avail ≤ blk.1 := (pairwise_cons.1 hcons).1
  have hbefore : ∀ blk ∈ pre, blk.1 + blk.2 ≤ cur := fun blk hblk =>
    hacross blk hblk _ mem_cons_self
  have hout : ∀ x, InBlocks rest x → ¬ InBlocks pre x := fun x hx hx' => by
    have h1 := le_of_inBlocks hafter hx
    have h2 := inBlocks_lt hbefore hx'
    omega
  unfold slobCut tailOf
  simp only [henc.slobNext_eq hnext]
  by_cases hfit : avail = units
  · rw [if_pos hfit, if_pos hfit, nil_append]
    obtain ⟨h1, h2⟩ := linkFrom_spec hp hc hpre hnext
    exact chain_append.2 ⟨next, h1, hrest.frame fun x hx => h2 x (hout x hx)⟩
  rw [if_neg hfit, if_neg hfit, singleton_append]
  obtain ⟨h1, h2⟩ := linkFrom_spec hp hc hpre (show 0 < cur + units by omega)
  have hpos : 0 < avail - units := by omega
  refine chain_append.2 ⟨cur + units, h1.frame fun x hx => ?_, rfl, hpos, next, hnext,
    enc_setSlob _ _ _ _, hrest.frame fun x hx => ?_⟩
  · have := inBlocks_lt hbefore hx
    exact setSlob_outside hpos (.inl (by omega))
  · have := le_of_inBlocks hafter hx
    exact (setSlob_outside hpos (.inr (by omega))).trans (h2 x (hout x hx))

def headOf (cur delta : ℤ) : List Blk := if delta = 0 then [] else [(cur, delta)]

def piecesOf (cur avail delta units : ℤ) : List Blk :=
  headOf cur delta ++ tailOf (cur + delta) (avail - delta) units

lemma slobTake_spec (hp : prev = pre.getLast?.map Prod.fst)
    (hc : Chain p.mem p.free (pre ++ (cur, avail) :: rest) e)
    (hu : 0 < units) (hdelta : 0 ≤ delta) (hle : units + delta ≤ avail) (hcur : 0 ≤ cur)
    (hd : (pre ++ (cur, avail) :: rest).Pairwise Before) :
    Chain (slobTake p prev cur units delta).2.mem (slobTake p prev cur units delta).2.free
      (pre ++ (piecesOf cur avail delta units ++ rest)) e := by
  obtain ⟨m, hpre, hm, hpos, next, hnext, henc, hrest⟩ := chain_append.1 hc
  simp only at hm hpos henc
  subst hm
  have hunits := henc.slobUnits_eq hpos hnext
  unfold slobTake piecesOf headOf
  by_cases h0 : delta = 0
  · subst h0
    simp only [ne_eq, not_true_eq_false, if_false, if_true, hunits, add_zero, sub_zero, nil_append]
    exact slobCut_spec hp hpre henc hnext hrest hu (by omega) hcur hd
  simp only [ne_eq, h0, not_false_eq_true, if_true, if_false, hunits]
  obtain ⟨hpre', hcons, hacross⟩ := pairwise_append.1 hd
  have hafter : ∀ blk ∈ rest, m + avail ≤ blk.1 := (pairwise_cons.1 hcons).1
  have hbefore : ∀ blk ∈ pre, blk.1 + blk.2 ≤ m := fun blk hblk => hacross blk hblk _ mem_cons_self
  have hdpos : 0 < delta := by omega
  have hlpos : 0 < avail - delta := by omega
  -- the memory with the block cut in two
  have hout : ∀ x, x < m ∨ m + avail ≤ x → slobHead p.mem m avail delta x = p.mem x := by
    intro x hx
    rw [slobHead, setSlob_outside hdpos (by omega), setSlob_outside hlpos (by omega)]
  have henc1 : Enc (slobHead p.mem m avail delta) m delta (m + delta) := enc_setSlob _ _ _ _
  have henc2 : Enc (slobHead p.mem m avail delta) (m + delta) (avail - delta) next := by
    have h2 := enc_setSlob p.mem (m + delta) (avail - delta) (slobNext p.mem m)
    rw [henc.slobNext_eq hnext] at h2
    refine h2.frame hlpos fun x h1 _ => ?_
    rw [slobHead, setSlob_outside hdpos (.inr h1), henc.slobNext_eq hnext]
  have hchain : Chain (slobHead p.mem m avail delta) p.free (pre ++ [(m, delta)]) (m + delta) :=
    chain_append.2 ⟨m, hpre.frame fun x hx => hout x (.inl (inBlocks_lt hbefore hx)), rfl,
    hdpos, m + delta, by omega, henc1, rfl⟩
  rw [henc2.slobUnits_eq hlpos hnext]
  have hlast : some m = (pre ++ [(m, delta)]).getLast?.map Prod.fst := by simp
  have hcut := slobCut_spec hlast hchain henc2 hnext
    (hrest.frame fun x hx => hout x (.inr (le_of_inBlocks hafter hx))) hu (by omega) (by omega)
    ?_
  · simpa only [append_assoc] using hcut
  rw [append_assoc]
  refine pairwise_append.2 ⟨hpre', pairwise_cons.2 ⟨?_, pairwise_cons.2 ⟨?_,
    (pairwise_cons.1 hcons).2⟩⟩, ?_⟩
  · intro blk hblk
    rcases mem_cons.1 hblk with rfl | hblk
    · exact le_refl (m + delta)
    · have := hafter blk hblk
      unfold Before
      omega
  · intro blk hblk
    have := hafter blk hblk
    unfold Before
    omega
  · intro a ha blk hblk
    have h1 := hbefore a ha
    unfold Before
    rcases mem_cons.1 hblk with rfl | hblk
    · exact h1
    rcases mem_cons.1 hblk with rfl | hblk
    · dsimp only
      omega
    · have := hafter blk hblk
      omega

lemma unitsOf_bounds (h1 : 1 ≤ size) (h2 : size ≤ 2 ^ c.unitShift * c.pageUnits) :
    0 < unitsOf c size ∧ unitsOf c size ≤ c.pageUnits := by
  have hu : 0 < 2 ^ c.unitShift := by positivity
  have hle : 2 ^ c.unitShift ≤ 2 ^ c.unitShift * c.pageUnits :=
    Nat.le_mul_of_pos_right _ c.pageUnits_pos
  have hlt := c.page_lt
  rw [unitsOf, Nat.mod_eq_of_lt (by omega)]
  refine ⟨Nat.div_pos (by omega) hu, ?_⟩
  refine Nat.lt_succ_iff.1 ((Nat.div_lt_iff_lt_mul hu).2 ?_)
  rw [Nat.succ_mul, mul_comm c.pageUnits]
  omega

lemma bmod_unitsOf (h1 : 1 ≤ size) (h2 : size ≤ 2 ^ c.unitShift * c.pageUnits) :
    Int.bmod (unitsOf c size) (2 ^ 32) = unitsOf c size := by
  have hle := (unitsOf_bounds h1 h2).2
  have hpage : c.pageUnits ≤ 2 ^ c.unitShift * c.pageUnits :=
    Nat.le_mul_of_pos_left _ (by positivity)
  have hlt := c.page_lt
  rw [Int.bmod_eq_of_le] <;> omega

lemma alignDelta_spec (ha : align = 0 ∨ ∃ k, align = 2 ^ k) (cur : ℤ) :
    0 ≤ alignDelta c align cur
      ∧ (align ≠ 0 → (align : ℤ) ∣ addr c (cur + alignDelta c align cur)) := by
  unfold alignDelta
  by_cases h0 : align = 0
  · rw [if_pos h0]
    exact ⟨le_rfl, fun hne => (hne h0).elim⟩
  rw [if_neg h0]
  obtain ⟨k, hk⟩ := ha.resolve_left h0
  have hu : (0 : ℤ) < 2 ^ c.unitShift := by positivity
  have hA : (0 : ℤ) < align := by omega
  have hbase : (2 ^ c.unitShift : ℤ) ∣ addr c cur := by
    refine Int.dvd_add ?_ (Int.dvd_mul_right _ _)
    exact_mod_cast (Nat.dvd_mul_right _ _).trans c.base_dvd
  set al : ℤ := (addr c cur + align - 1) / align * align with hal
  have hdiv := Int.emod_add_mul_ediv (addr c cur + align - 1) align
  have hmod := Int.emod_lt_of_pos (addr c cur + align - 1) hA
  rw [Int.mul_comm] at hdiv
  have hdvd : (2 ^ c.unitShift : ℤ) ∣ al - addr c cur := by
    rcases Nat.le_total c.unitShift k with hle | hle
    · refine Int.dvd_sub ?_ hbase
      refine Int.dvd_trans ?_ (Int.dvd_mul_left _ _)
      rw [hk]
      exact_mod_cast pow_dvd_pow 2 hle
    have hAx : (align : ℤ) ∣ addr c cur := by
      refine Int.dvd_trans ?_ hbase
      rw [hk]
      exact_mod_cast pow_dvd_pow 2 hle
    obtain ⟨y, hy⟩ := hAx
    have : al = addr c cur := by
      rw [hal, hy, show (align : ℤ) * y + align - 1 = (align - 1) + align * y by ring,
        Int.add_mul_ediv_left _ _ hA.ne', Int.ediv_eq_zero_of_lt (by omega) (by omega),
        Int.zero_add, Int.mul_comm]
    rw [this, Int.sub_self]
    exact Int.dvd_zero _
  refine ⟨Int.ediv_nonneg (by omega) hu.le, fun _ => ?_⟩
  have haddr : addr c (cur + (al - addr c cur) / 2 ^ c.unitShift) = al := by
    have hmul := Int.mul_ediv_cancel' hdvd
    rw [addr, Int.mul_add, hmul, addr]
    omega
  rw [haddr]
  exact Int.dvd_mul_left _ _

variable {fl : List Blk}

structure PageOk (c : Conf) (p : SlobPage) (live : List Live) (fl : List Blk) : Prop where
  chain : Chain p.mem p.free fl c.pageUnits
  apart : fl.Pairwise Apart
  bounds : ∀ blk ∈ fl, 0 ≤ blk.1 ∧ 0 < blk.2 ∧ blk.1 + blk.2 ≤ c.pageUnits
  units : (fl.map Prod.snd).sum = p.units
  onList : p.onList = true ↔ fl ≠ []
  total : p.units + (live.map fun blk => (unitsOf c blk.size : ℤ)).sum = c.pageUnits
  blocks : ∀ blk ∈ live, 0 ≤ blk.start ∧ 0 < unitsOf c blk.size
    ∧ blk.start + unitsOf c blk.size ≤ c.pageUnits
    ∧ (blk.align ≠ 0 → (blk.align : ℤ) ∣ addr c blk.start)
  disjoint : live.Pairwise fun a b => ∀ x, ¬ (a.has c x ∧ b.has c x)
  cover : ∀ x : ℤ, 0 ≤ x → x < c.pageUnits → (InBlocks fl x ↔ ∀ blk ∈ live, ¬ blk.has c x)

lemma Apart.before {a b : Blk} (h : Apart a b) : Before a b := le_of_lt h

lemma fresh_ok (c : Conf) (mem : Mem) : PageOk c (freshPage c mem) [] [(0, c.pageUnits)] := by
  have hpos : (0 : ℤ) < c.pageUnits := by exact_mod_cast c.pageUnits_pos
  refine ⟨⟨rfl, hpos, c.pageUnits, hpos, enc_setSlob _ _ _ _, rfl⟩, pairwise_singleton _ _, ?_,
    ?_, ?_, ?_, by simp, List.Pairwise.nil, ?_⟩
  · simpa using hpos
  · simp [freshPage]
  · simp [freshPage]
  · simp [freshPage]
  · intro x h1 h2
    simp [h1, h2]

lemma PageOk.write (h : PageOk c p live fl)
    (hmem : ∀ x, (∀ blk ∈ live, ¬ blk.has c x) → mem x = p.mem x) :
    PageOk c { p with mem := mem } live fl := by
  refine { h with chain := h.chain.frame fun x hx => hmem x ?_ }
  have hx' := hx
  obtain ⟨blk, hblk, h1, h2⟩ := hx'
  obtain ⟨h3, -, h5⟩ := h.bounds blk hblk
  exact (h.cover x (by omega) (by omega)).1 hx

def AllocResult (c : Conf) (p : SlobPage) (fl : List Blk) (units : ℤ) (align : ℕ)
    (r : Option ℤ × SlobPage) : Prop :=
  r = (none, p) ∨ ∃ pre s n rest, fl = pre ++ (s, n) :: rest ∧ units + alignDelta c align s ≤ n
    ∧ r = (some (s + alignDelta c align s),
      (slobTake p (pre.getLast?.map Prod.fst) s units (alignDelta c align s)).2)

lemma allocPass_next (h : PageOk c p live fl) {s : Option ℤ × ℤ}
    (hs : ∃ pre n rest, fl = pre ++ (s.2, n) :: rest ∧ s.1 = pre.getLast?.map Prod.fst) :
    (allocPass c p units align s).Next
      (fun s => ∃ pre n rest, fl = pre ++ (s.2, n) :: rest ∧ s.1 = pre.getLast?.map Prod.fst)
      (AllocResult c p fl units align) (fun s => ((c.pageUnits : ℤ) - s.2).toNat)
      ((c.pageUnits : ℤ) - s.2).toNat := by
  obtain ⟨pre, n, rest, hfl, hprev⟩ := hs
  have hchain := h.chain
  rw [hfl] at hchain
  obtain ⟨m, -, hm, hpos, next, hnext, henc, hrest⟩ := chain_append.1 hchain
  simp only at hm hpos henc
  rw [allocPass, henc.slobUnits_eq hpos hnext, slobLast, henc.slobNext_eq hnext]
  dsimp only
  split_ifs with hroom hlast
  · exact .inr ⟨pre, s.2, n, rest, hfl, hroom, by rw [hprev]; rfl⟩
  · exact .inl rfl
  cases rest with
  | nil =>
    obtain rfl : next = c.pageUnits := hrest
    simp at hlast
  | cons blk rest =>
    obtain ⟨rfl, -⟩ := hrest
    obtain ⟨h1, h2, h3⟩ := h.bounds (s.2, n) (by simp [hfl])
    obtain ⟨h4, h5, h6⟩ := h.bounds blk (by simp [hfl])
    have hap := h.apart
    rw [hfl] at hap
    have hlt : s.2 + n < blk.1 :=
      (pairwise_cons.1 (pairwise_append.1 hap).2.1).1 blk mem_cons_self
    simp only at h1 h2 h3
    refine ⟨⟨pre ++ [(s.2, n)], blk.2, rest, by simp [hfl], by simp⟩, ?_⟩
    dsimp only
    omega

lemma slobPageAlloc_spec (h : PageOk c p live fl) (hlist : p.onList = true)
    (h1 : 1 ≤ size) (h2 : size ≤ 2 ^ c.unitShift * c.pageUnits) (align : ℕ) :
    ∃ r, slobPageAlloc c p size align = some r ∧ AllocResult c p fl (unitsOf c size) align r := by
  rw [slobPageAlloc, bmod_unitsOf h1 h2]
  refine Pass.run_of_next (fun s hs => allocPass_next h hs) _ ?_ ?_
  · cases fl with
    | nil => exact absurd rfl (h.onList.1 hlist)
    | cons blk rest =>
      obtain ⟨hfree, -⟩ := h.chain
      exact ⟨[], blk.2, rest, by simp [hfree], rfl⟩
  · have hfree : 0 ≤ p.free := by
      cases fl with
      | nil => exact absurd rfl (h.onList.1 hlist)
      | cons blk rest =>
        obtain ⟨hfree, -⟩ := h.chain
        rw [hfree]
        exact (h.bounds blk mem_cons_self).1
    dsimp only
    omega

lemma piecesOf_region (hdelta : 0 ≤ delta) (hu : 0 < units)
    (hle : units + delta ≤ n) : InBlocks (piecesOf s n delta units) x
      ↔ (s ≤ x ∧ x < s + n) ∧ ¬ (s + delta ≤ x ∧ x < s + delta + units) := by
  unfold piecesOf headOf tailOf
  split_ifs <;> simp <;> omega

lemma piecesOf_bounds (hdelta : 0 ≤ delta) (hu : 0 < units)
    (hle : units + delta ≤ n) :
    ∀ blk ∈ piecesOf s n delta units, s ≤ blk.1 ∧ 0 < blk.2 ∧ blk.1 + blk.2 ≤ s + n := by
  unfold piecesOf headOf tailOf
  split_ifs <;> simp <;> omega

lemma piecesOf_apart (hu : 0 < units) :
    (piecesOf s n delta units).Pairwise Apart := by
  unfold piecesOf headOf tailOf
  split_ifs <;> simp [Apart]
  omega

lemma piecesOf_sum (s n delta units : ℤ) :
    ((piecesOf s n delta units).map Prod.snd).sum = n - units := by
  unfold piecesOf headOf tailOf
  split_ifs <;> simp <;> omega

lemma apart_replace {pieces : List Blk} {blk : Blk}
    (h : (pre ++ blk :: rest).Pairwise Apart) (hp : pieces.Pairwise Apart)
    (hin : ∀ q ∈ pieces, blk.1 ≤ q.1 ∧ 0 < q.2 ∧ q.1 + q.2 ≤ blk.1 + blk.2) :
    (pre ++ (pieces ++ rest)).Pairwise Apart := by
  obtain ⟨hpre, hcons, hacross⟩ := pairwise_append.1 h
  obtain ⟨hafter, hrest⟩ := pairwise_cons.1 hcons
  refine pairwise_append.2 ⟨hpre, pairwise_append.2 ⟨hp, hrest, ?_⟩, ?_⟩
  · intro q hq a ha
    have h1 : blk.1 + blk.2 < a.1 := hafter a ha
    obtain ⟨-, -, h2⟩ := hin q hq
    unfold Apart
    omega
  · intro a ha q hq
    rcases mem_append.1 hq with hq | hq
    · have h1 : a.1 + a.2 < blk.1 := hacross a ha blk mem_cons_self
      obtain ⟨h2, -⟩ := hin q hq
      unfold Apart
      omega
    · exact hacross a ha q (mem_cons_of_mem _ hq)

lemma units_pos (hpos : ∀ blk ∈ l, 0 < blk.2) (hne : l ≠ []) :
    0 < (l.map Prod.snd).sum := by
  refine sum_pos _ (fun n hn => ?_) (by simpa using hne)
  obtain ⟨blk, hblk, rfl⟩ := mem_map.1 hn
  exact hpos blk hblk

lemma PageOk.alloc (h : PageOk c p live fl) (h1 : 1 ≤ size)
    (h2 : size ≤ 2 ^ c.unitShift * c.pageUnits) (ha : align = 0 ∨ ∃ k, align = 2 ^ k)
    (hfl : fl = pre ++ (s, n) :: rest) (hroom : unitsOf c size + alignDelta c align s ≤ n) :
    PageOk c (slobTake p (pre.getLast?.map Prod.fst) s (unitsOf c size) (alignDelta c align s)).2
      (⟨s + alignDelta c align s, size, align⟩ :: live)
      (pre ++ (piecesOf s n (alignDelta c align s) (unitsOf c size) ++ rest)) := by
  obtain ⟨hdelta, haligned⟩ := alignDelta_spec (c := c) ha s
  generalize alignDelta c align s = delta at *
  have hu : (0 : ℤ) < unitsOf c size := by exact_mod_cast (unitsOf_bounds h1 h2).1
  subst hfl
  obtain ⟨hs, hn, hsn⟩ := h.bounds (s, n) (by simp)
  simp only at hs hn hsn
  have hin := piecesOf_bounds (s := s) hdelta hu hroom
  have hbounds : ∀ blk ∈ pre ++ (piecesOf s n delta (unitsOf c size) ++ rest),
      0 ≤ blk.1 ∧ 0 < blk.2 ∧ blk.1 + blk.2 ≤ c.pageUnits := by
    intro blk hblk
    simp only [mem_append] at hblk
    rcases hblk with hblk | hblk | hblk
    · exact h.bounds blk (by simp [hblk])
    · obtain ⟨h3, h4, h5⟩ := hin blk hblk
      exact ⟨by omega, h4, by omega⟩
    · exact h.bounds blk (by simp [hblk])
  have hsum : ((pre ++ (piecesOf s n delta (unitsOf c size) ++ rest)).map Prod.snd).sum
      = p.units - unitsOf c size := by
    have := h.units
    simp only [map_append, map_cons, sum_append, sum_cons, piecesOf_sum] at this ⊢
    omega
  have hregion : ∀ x, InBlocks (pre ++ (piecesOf s n delta (unitsOf c size) ++ rest)) x
      ↔ InBlocks (pre ++ (s, n) :: rest) x
      ∧ ¬ (s + delta ≤ x ∧ x < s + delta + unitsOf c size) := by
    intro x
    obtain ⟨-, hcons, hacross⟩ := pairwise_append.1 h.apart
    have hafter : InBlocks rest x → s + n ≤ x := le_of_inBlocks fun blk hblk =>
      le_of_lt ((pairwise_cons.1 hcons).1 blk hblk)
    have hbefore : InBlocks pre x → x < s := inBlocks_lt fun blk hblk =>
      le_of_lt (hacross blk hblk _ mem_cons_self)
    simp only [inBlocks_append, inBlocks_cons, piecesOf_region hdelta hu hroom]
    constructor
    · rintro (hx | hx | hx)
      · exact ⟨.inl hx, by have := hbefore hx; omega⟩
      · exact ⟨.inr (.inl hx.1), hx.2⟩
      · exact ⟨.inr (.inr hx), by have := hafter hx; omega⟩
    · rintro ⟨hx | hx | hx, hnot⟩
      · exact .inl hx
      · exact .inr (.inl ⟨hx, hnot⟩)
      · exact .inr (.inr hx)
  refine ⟨?_, apart_replace h.apart (piecesOf_apart hu) hin, hbounds, hsum, ?_, ?_, ?_, ?_, ?_⟩
  · exact slobTake_spec rfl h.chain hu hdelta hroom hs (h.apart.imp Apart.before)
  · have hlist : p.onList = true := h.onList.2 (by simp)
    show (if p.units - unitsOf c size = 0 then false else p.onList) = true ↔ _
    rw [← hsum, hlist]
    constructor
    · intro hne hnil
      rw [hnil] at hne
      simp at hne
    · intro hne
      rw [if_neg (units_pos (fun blk hblk => (hbounds blk hblk).2.1) hne).ne']
  · have := h.total
    show p.units - unitsOf c size + _ = _
    simp only [map_cons, sum_cons]
    omega
  · rintro blk hblk
    rcases mem_cons.1 hblk with rfl | hblk
    · exact ⟨by dsimp only; omega, (unitsOf_bounds h1 h2).1, by dsimp only; omega, haligned⟩
    · exact h.blocks blk hblk
  · refine pairwise_cons.2 ⟨fun blk hblk x hx => ?_, h.disjoint⟩
    obtain ⟨⟨hx1, hx2⟩, hx3⟩ := hx
    simp only at hx1 hx2
    refine (h.cover x (by omega) (by omega)).1 ?_ blk hblk hx3
    simp only [inBlocks_append, inBlocks_cons]
    exact .inr (.inl (by omega))
  · intro x hx1 hx2
    rw [hregion, h.cover x hx1 hx2, forall_mem_cons, And.comm]
    rfl

variable {before after : List Live}

lemma PageOk.sep (h : PageOk c p (before ++ blk :: after) fl) {a : Blk} (ha : a ∈ fl) :
    a.1 + a.2 ≤ blk.start ∨ blk.start + unitsOf c blk.size ≤ a.1 := by
  by_contra hover
  push Not at hover
  obtain ⟨h1, h2, h3⟩ := h.bounds a ha
  obtain ⟨-, h4, -⟩ := h.blocks blk (by simp)
  have hx := (h.cover (max a.1 blk.start) (by omega) (by omega)).1
    ⟨a, ha, by omega, by omega⟩ blk (by simp)
  exact hx ⟨by omega, by omega⟩

lemma PageOk.give (h : PageOk c p (before ++ blk :: after) fl) {p' : SlobPage} {fl' : List Blk}
    (hchain : Chain p'.mem p'.free fl' c.pageUnits) (hapart : fl'.Pairwise Apart)
    (hbounds : ∀ a ∈ fl', 0 ≤ a.1 ∧ 0 < a.2 ∧ a.1 + a.2 ≤ c.pageUnits)
    (hsum : (fl'.map Prod.snd).sum = p.units + unitsOf c blk.size)
    (hunits : p'.units = p.units + unitsOf c blk.size) (hlist : p'.onList = true)
    (hregion : ∀ x, InBlocks fl' x ↔ InBlocks fl x ∨ blk.has c x) :
    PageOk c p' (before ++ after) fl' := by
  obtain ⟨hb, hcons, hacross⟩ := pairwise_append.1 h.disjoint
  obtain ⟨hblk, ha⟩ := pairwise_cons.1 hcons
  have hother : ∀ a ∈ before ++ after, ∀ x, blk.has c x → ¬ a.has c x := by
    intro a hmem x hx hax
    rcases mem_append.1 hmem with hmem | hmem
    · exact hacross a hmem blk mem_cons_self x ⟨hax, hx⟩
    · exact hblk a hmem x ⟨hx, hax⟩
  have hpos := (h.blocks blk (by simp)).2.1
  refine ⟨hchain, hapart, hbounds, hsum.trans hunits.symm, ?_, ?_, ?_, ?_, ?_⟩
  · refine ⟨fun _ hnil => ?_, fun _ => hlist⟩
    have h1 := (hregion blk.start).2 (.inr ⟨le_rfl, by omega⟩)
    rw [hnil] at h1
    exact inBlocks_nil h1
  · have := h.total
    rw [hunits]
    simp only [map_append, map_cons, sum_append, sum_cons] at this ⊢
    omega
  · intro a hmem
    refine h.blocks a ?_
    rcases mem_append.1 hmem with hmem | hmem <;> simp [hmem]
  · exact pairwise_append.2 ⟨hb, ha, fun a h1 b h2 => hacross a h1 b (mem_cons_of_mem _ h2)⟩
  · intro x hx1 hx2
    rw [hregion, h.cover x hx1 hx2]
    constructor
    · rintro (hx | hx) a hmem
      · refine hx a ?_
        rcases mem_append.1 hmem with hmem | hmem <;> simp [hmem]
      · exact hother a hmem x hx
    · intro hx
      by_cases hb' : blk.has c x
      · exact .inr hb'
      refine .inl fun a hmem => ?_
      rcases mem_append.1 hmem with hmem | hmem
      · exact hx a (by simp [hmem])
      · rcases mem_cons.1 hmem with rfl | hmem
        · exact hb'
        · exact hx a (by simp [hmem])

/-- A new block `b` of `n` units before the blocks `rest`, joined with the first of them or not: the
block of `m` units at `b` and the blocks after it. -/
structure Joined (mem mem' : Mem) (b n e : ℤ) (rest : List Blk) (m nx : ℤ) (rest' : List Blk) :
    Prop where
  enc : Enc mem' b m nx
  next_pos : 0 < nx
  chain : Chain mem' nx rest' e
  apart : ((b, m) :: rest').Pairwise Apart
  bounds : ∀ a ∈ (b, m) :: rest', 0 ≤ a.1 ∧ 0 < a.2 ∧ a.1 + a.2 ≤ e
  sum : m + (rest'.map Prod.snd).sum = n + (rest.map Prod.snd).sum
  region : ∀ x, InBlocks ((b, m) :: rest') x ↔ InBlocks ((b, n) :: rest) x
  same : ∀ x, x < b → mem' x = mem x

variable {rest' : List Blk} {s : ℤ × ℤ}

lemma joined_merge {s : ℤ} (hb : 0 ≤ b) (hn : 0 < n) (hbn : b + n = s)
    (hc : Chain mem s ((s, k) :: rest) e) (hap : ((s, k) :: rest).Pairwise Apart)
    (hbounds : ∀ a ∈ (s, k) :: rest, 0 ≤ a.1 ∧ 0 < a.2 ∧ a.1 + a.2 ≤ e) :
    Joined mem (setSlob mem b (n + slobUnits mem s) (slobNext mem s)) b n e ((s, k) :: rest) (n + k)
      (slobNext mem s) rest := by
  obtain ⟨-, hk, next, hnext, henc, hrest⟩ := hc
  simp only at hk henc
  rw [henc.slobUnits_eq hk hnext, henc.slobNext_eq hnext]
  obtain ⟨hafter, hap'⟩ := pairwise_cons.1 hap
  obtain ⟨-, -, hsk⟩ := hbounds (s, k) mem_cons_self
  simp only at hsk
  have hafter' : ∀ a ∈ rest, s + k < a.1 := hafter
  refine ⟨enc_setSlob _ _ _ _, hnext, hrest.frame fun x hx => ?_, pairwise_cons.2 ⟨?_, hap'⟩, ?_,
    ?_, fun x => ?_, fun x hx => setSlob_outside (by omega) (.inl hx)⟩
  · have := le_of_inBlocks (fun a ha => (hafter' a ha).le) hx
    exact setSlob_outside (by omega) (.inr (by omega))
  · intro a ha
    have := hafter' a ha
    show b + (n + k) < a.1
    omega
  · intro a ha
    rcases mem_cons.1 ha with rfl | ha
    · exact ⟨hb, by dsimp only; omega, by dsimp only; omega⟩
    · exact hbounds a (mem_cons_of_mem _ ha)
  · simp only [map_cons, sum_cons]
    omega
  · simp only [inBlocks_cons]
    constructor
    · rintro (hx | hx)
      · by_cases hlt : x < s
        · exact .inl (by omega)
        · exact .inr (.inl (by omega))
      · exact .inr (.inr hx)
    · rintro (hx | hx | hx)
      · exact .inl (by omega)
      · exact .inl (by omega)
      · exact .inr hx

lemma joined_keep (hb : 0 ≤ b) (hn : 0 < n) (hbn : b + n ≤ e) (hnext : 0 < next)
    (hc : Chain mem next rest e) (hap : rest.Pairwise Apart) (hafter : ∀ a ∈ rest, b + n < a.1)
    (hbounds : ∀ a ∈ rest, 0 ≤ a.1 ∧ 0 < a.2 ∧ a.1 + a.2 ≤ e) :
    Joined mem (setSlob mem b n next) b n e rest n next rest := by
  refine ⟨enc_setSlob _ _ _ _, hnext, hc.frame fun x hx => ?_, pairwise_cons.2 ⟨hafter, hap⟩, ?_,
    rfl, fun x => Iff.rfl, fun x hx => setSlob_outside hn (.inl hx)⟩
  · exact setSlob_outside hn (.inr (le_of_inBlocks (fun a ha => (hafter a ha).le) hx))
  · intro a ha
    rcases mem_cons.1 ha with rfl | ha
    · exact ⟨hb, hn, hbn⟩
    · exact hbounds a ha

lemma PageOk.give_first (h : PageOk c p (before ++ blk :: after) fl)
    (hj : Joined p.mem mem' blk.start (unitsOf c blk.size) c.pageUnits fl m nx rest') :
    PageOk c ⟨mem', blk.start, p.units + unitsOf c blk.size, true⟩ (before ++ after)
      ((blk.start, m) :: rest') := by
  have hm := (hj.bounds _ mem_cons_self).2.1
  refine h.give ⟨rfl, hm, nx, hj.next_pos, hj.enc,
    hj.chain⟩ hj.apart hj.bounds ?_ rfl rfl fun x => ?_
  · rw [map_cons, sum_cons, hj.sum, h.units, Int.add_comm]
  · rw [hj.region, inBlocks_cons, Or.comm]
    rfl

lemma freePrev_spec
    (hpre : Chain mem free pre q) (henc : Enc mem q k next) (hnext : 0 < next) (hk : 0 < k)
    (hbefore : ∀ a ∈ pre, a.1 + a.2 < q) (hqb : q + k ≤ b) (hq : 0 ≤ q)
    (hj : Joined mem mem' b n e rest m nx rest') :
    Chain (freePrev mem' b q) free
      (pre ++ if q + k = b then (q, m + k) :: rest' else (q, k) :: (b, m) :: rest') e := by
  have hm := (hj.bounds _ mem_cons_self).2.1
  simp only at hm
  have hafter : ∀ a ∈ rest', b + m < a.1 := (pairwise_cons.1 hj.apart).1
  have hpre' : Chain mem' free pre q := hpre.frame fun x hx =>
    hj.same x (by have := inBlocks_lt (fun a ha => (hbefore a ha).le) hx; omega)
  have henc' : Enc mem' q k next := henc.frame hk fun x _ hx => hj.same x (by omega)
  rw [freePrev, henc'.slobUnits_eq hk hnext, hj.enc.slobUnits_eq hm hj.next_pos,
    hj.enc.slobNext_eq hj.next_pos]
  have hframe : ∀ n' next', 0 < n' → q + n' ≤ b + m →
      Chain (setSlob mem' q n' next') free pre q ∧ Chain (setSlob mem' q n' next') nx rest' e := by
    intro n' next' hn' hle
    refine ⟨hpre'.frame fun x hx => ?_, hj.chain.frame fun x hx => ?_⟩
    · exact setSlob_outside hn' (.inl (inBlocks_lt (fun a ha => (hbefore a ha).le) hx))
    · have := le_of_inBlocks (fun a ha => (hafter a ha).le) hx
      exact setSlob_outside hn' (.inr (by omega))
  by_cases htouch : q + k = b
  · rw [if_pos htouch, if_pos htouch]
    obtain ⟨h1, h2⟩ := hframe (m + k) nx (by omega) (by omega)
    exact chain_append.2
      ⟨q, h1, rfl, by dsimp only; omega, nx, hj.next_pos, enc_setSlob _ _ _ _, h2⟩
  · rw [if_neg htouch, if_neg htouch]
    obtain ⟨h1, h2⟩ := hframe k b hk (by omega)
    refine chain_append.2
      ⟨q, h1, rfl, hk, b, by omega, enc_setSlob _ _ _ _, rfl, hm, nx, hj.next_pos,
      hj.enc.frame hm fun x hx _ => ?_, h2⟩
    exact setSlob_outside hk (.inr (by omega))

lemma or_move_last {P Q R S : Prop} : P ∨ Q ∨ S ∨ R ↔ (P ∨ Q ∨ R) ∨ S := by tauto

lemma PageOk.give_later (h : PageOk c p (before ++ blk :: after) fl)
    (hfl : fl = pre ++ (q, k) :: rest)
    (hpre : Chain p.mem p.free pre q) (henc : Enc p.mem q k next) (hnext : 0 < next)
    (hqb : q + k ≤ blk.start)
    (hj : Joined p.mem mem' blk.start (unitsOf c blk.size) c.pageUnits rest m nx rest') :
    ∃ fl', PageOk c ⟨freePrev mem' blk.start q, p.free, p.units + unitsOf c blk.size, true⟩
      (before ++ after) fl' := by
  subst hfl
  obtain ⟨hq, hk, -⟩ := h.bounds (q, k) (by simp)
  simp only at hq hk
  obtain ⟨hpreap, -, hacross⟩ := pairwise_append.1 h.apart
  have hbefore : ∀ a ∈ pre, a.1 + a.2 < q := fun a ha => hacross a ha _ mem_cons_self
  obtain ⟨hafter, hap'⟩ := pairwise_cons.1 hj.apart
  have hafter' : ∀ a ∈ rest', blk.start + m < a.1 := hafter
  have hm := (hj.bounds _ mem_cons_self).2
  simp only at hm
  have hchain := freePrev_spec hpre henc hnext hk hbefore hqb hq hj
  have hlater : ∀ a ∈ (blk.start, m) :: rest', blk.start ≤ a.1 := by
    intro a ha
    rcases mem_cons.1 ha with rfl | ha
    · exact le_rfl
    · have := hafter' a ha
      omega
  refine ⟨_, h.give hchain ?_ ?_ ?_ rfl rfl fun x => ?_⟩
  · refine pairwise_append.2 ⟨hpreap, ?_, fun a ha b hb => ?_⟩
    · split_ifs with htouch
      · refine pairwise_cons.2 ⟨fun a ha => ?_, hap'⟩
        have := hafter' a ha
        show q + (m + k) < a.1
        omega
      · refine pairwise_cons.2 ⟨fun a ha => ?_, hj.apart⟩
        have := hlater a ha
        show q + k < a.1
        omega
    · have h1 := hbefore a ha
      have h2 : q ≤ b.1 := by
        split_ifs at hb
        · rcases mem_cons.1 hb with rfl | hb
          · exact le_rfl
          · have := hafter' b hb
            omega
        · rcases mem_cons.1 hb with rfl | hb
          · exact le_rfl
          · have := hlater b hb
            omega
      unfold Apart
      omega
  · intro a ha
    rcases mem_append.1 ha with ha | ha
    · exact h.bounds a (by simp [ha])
    split_ifs at ha
    · rcases mem_cons.1 ha with rfl | ha
      · exact ⟨hq, by dsimp only; omega, by dsimp only; omega⟩
      · exact hj.bounds a (mem_cons_of_mem _ ha)
    · rcases mem_cons.1 ha with rfl | ha
      · exact h.bounds _ (by simp)
      · exact hj.bounds a ha
  · have h1 := h.units
    have h2 := hj.sum
    split_ifs <;>
      simp only [map_append, map_cons, sum_append, sum_cons] at h1 ⊢ <;> omega
  · have hreg := hj.region x
    simp only [inBlocks_append, inBlocks_cons, Live.has] at hreg ⊢
    split_ifs with htouch
    · simp only [inBlocks_cons]
      have hsplit : (q ≤ x ∧ x < q + (m + k))
          ↔ (q ≤ x ∧ x < q + k) ∨ (blk.start ≤ x ∧ x < blk.start + m) := by omega
      rw [hsplit, or_assoc, hreg]
      exact or_move_last
    · simp only [inBlocks_cons]
      rw [hreg]
      exact or_move_last

/-- The block before the one freed, and the link it has. -/
def FreePos (p : SlobPage) (fl : List Blk) (b e : ℤ) (s : ℤ × ℤ) : Prop :=
  ∃ pre k rest, fl = pre ++ (s.1, k) :: rest ∧ s.1 < b ∧ Chain p.mem p.free pre s.1
    ∧ Enc p.mem s.1 k s.2 ∧ 0 < s.2 ∧ Chain p.mem s.2 rest e

lemma freePass_next (h : PageOk c p (before ++ blk :: after) fl)
    (hs : FreePos p fl blk.start c.pageUnits s) :
    (freePass p.mem blk.start s).Next (FreePos p fl blk.start c.pageUnits)
      (fun s => FreePos p fl blk.start c.pageUnits s ∧ blk.start ≤ s.2)
      (fun s => ((c.pageUnits : ℤ) - s.1).toNat) ((c.pageUnits : ℤ) - s.1).toNat := by
  rw [freePass]
  split_ifs with hlt
  · obtain ⟨pre, k, rest, hfl, hsb, hpre, henc, hpos, hrest⟩ := hs
    obtain ⟨hstart, hunits, hend, -⟩ := h.blocks blk (by simp)
    obtain ⟨hs0, hk, -⟩ := h.bounds (s.1, k) (by simp [hfl])
    simp only at hs0 hk
    cases rest with
    | nil =>
      have : s.2 = c.pageUnits := hrest
      omega
    | cons a rest =>
      obtain ⟨hs2, ha, next, hnext, henc', hrest'⟩ := hrest
      have hap := h.apart
      rw [hfl] at hap
      have hlt' : s.1 + k < a.1 := (pairwise_cons.1 (pairwise_append.1 hap).2.1).1 a mem_cons_self
      rw [hs2, henc'.slobNext_eq hnext]
      refine ⟨⟨pre ++ [(s.1, k)], a.2, rest, by simp [hfl], by omega, ?_, henc', hnext, hrest'⟩, ?_⟩
      · exact chain_append.2 ⟨s.1, hpre, rfl, hk, s.2, hpos, henc, hs2⟩
      · dsimp only
        omega
  · exact ⟨hs, not_lt.1 hlt⟩

lemma freeNext_spec (h : PageOk c p (before ++ blk :: after) fl)
    (hs : FreePos p fl blk.start c.pageUnits s) (hle : blk.start ≤ s.2) :
    ∃ fl', PageOk c ⟨freePrev
    (freeNext c p.mem blk.start (unitsOf c blk.size) s.1 s.2) blk.start s.1,
      p.free, p.units + unitsOf c blk.size, true⟩ (before ++ after) fl' := by
  obtain ⟨pre, k, rest, hfl, hsb, hpre, henc, hpos, hrest⟩ := hs
  obtain ⟨hstart, hunits, hend, -⟩ := h.blocks blk (by simp)
  obtain ⟨hs0, hk, -⟩ := h.bounds (s.1, k) (by simp [hfl])
  simp only at hs0 hk
  have hqb : s.1 + k ≤ blk.start := by
    have := h.sep (a := (s.1, k)) (by simp [hfl])
    simp only at this
    omega
  have hap := h.apart
  rw [hfl] at hap
  have hrestap := (pairwise_cons.1 (pairwise_append.1 hap).2.1).2
  have hbounds : ∀ a ∈ rest, 0 ≤ a.1 ∧ 0 < a.2 ∧ a.1 + a.2 ≤ c.pageUnits := fun a ha =>
    h.bounds a (by simp [hfl, ha])
  have hge : ∀ a ∈ rest, s.2 ≤ a.1 := by
    intro a ha
    cases rest with
    | nil => cases ha
    | cons a' rest =>
      obtain ⟨hs2, ha', -⟩ := hrest
      rcases mem_cons.1 ha with rfl | ha
      · exact hs2.le
      · have : a'.1 + a'.2 < a.1 := (pairwise_cons.1 hrestap).1 a ha
        omega
  have hsep : ∀ a ∈ rest, blk.start + unitsOf c blk.size ≤ a.1 := by
    intro a ha
    have h1 := h.sep (a := a) (by simp [hfl, ha])
    have h2 := hge a ha
    have h3 := hbounds a ha
    omega
  rw [freeNext, slobLast, henc.slobNext_eq hpos]
  split_ifs with htouch
  · cases rest with
    | nil =>
      have hlast : s.2 = c.pageUnits := hrest
      rw [hlast] at htouch
      simp at htouch
    | cons a rest =>
      obtain ⟨a, n⟩ := a
      have hs2 : s.2 = a := hrest.1
      rw [hs2] at hrest htouch ⊢
      exact h.give_later hfl hpre henc hpos hqb
        (joined_merge hstart (by omega) htouch.2 hrest hrestap hbounds)
  · refine h.give_later hfl hpre henc hpos hqb
      (joined_keep hstart (by omega) hend hpos hrest hrestap (fun a ha => ?_) hbounds)
    refine lt_of_le_of_ne (hsep a ha) fun heq => htouch ?_
    have h1 := hge a ha
    have h2 := hbounds a ha
    have hs2 : blk.start + unitsOf c blk.size ≤ s.2 := by
      cases rest with
      | nil => cases ha
      | cons a' rest =>
        obtain ⟨hs2, -⟩ := hrest
        rw [hs2]
        exact hsep a' mem_cons_self
    refine ⟨?_, by omega⟩
    rw [Int.emod_eq_of_lt hpos.le (by omega)]
    simpa using hpos.ne'

lemma live_units_pos {l : List Live} (hpos : ∀ blk ∈ l, 0 < unitsOf c blk.size) (hne : l ≠ []) :
    0 < (l.map fun blk => (unitsOf c blk.size : ℤ)).sum := by
  refine sum_pos _ (fun n hn => ?_) (by simpa using hne)
  obtain ⟨blk, hblk, rfl⟩ := mem_map.1 hn
  exact_mod_cast hpos blk hblk

lemma slobFree_spec (h : PageOk c p (before ++ blk :: after) fl) :
    (before ++ after = [] ∧ slobFree c p blk.start blk.size = some .left)
      ∨ (before ++ after ≠ [] ∧ ∃ p' fl', slobFree c p blk.start blk.size = some (.kept p')
        ∧ PageOk c p' (before ++ after) fl') := by
  obtain ⟨hstart, hunits, hend, -⟩ := h.blocks blk (by simp)
  have htotal := h.total
  simp only [map_append, map_cons, sum_append, sum_cons] at htotal
  by_cases hnil : before ++ after = []
  · obtain ⟨rfl, rfl⟩ := append_eq_nil_iff.1 hnil
    simp only [map_nil, sum_nil] at htotal
    refine .inl ⟨rfl, ?_⟩
    rw [slobFree, if_pos (by omega)]
  refine .inr ⟨hnil, ?_⟩
  have hothers : 0 < ((before ++ after).map fun blk => (unitsOf c blk.size : ℤ)).sum :=
    live_units_pos (fun a ha => (h.blocks a (by
      rcases mem_append.1 ha with ha | ha <;> simp [ha])).2.1) hnil
  simp only [map_append, sum_append] at hothers
  have hpos : (0 : ℤ) < c.pageUnits := by exact_mod_cast c.pageUnits_pos
  rw [slobFree, if_neg (by omega)]
  cases hlist : p.onList with
  | false =>
    have hempty : fl = [] := by
      by_contra hne
      rw [h.onList.2 hne] at hlist
      cases hlist
    subst hempty
    have hzero : p.units = 0 := h.units.symm
    have hmask : (blk.start + c.pageUnits) / c.pageUnits * c.pageUnits = (c.pageUnits : ℤ) := by
      rw [Int.add_ediv_of_dvd_right (Int.dvd_refl _), Int.ediv_eq_zero_of_lt hstart (by omega),
        Int.ediv_self hpos.ne', Int.zero_add, Int.one_mul]
    have hgive := h.give_first (joined_keep hstart (by omega) hend hpos
      (show Chain p.mem c.pageUnits [] c.pageUnits from rfl) List.Pairwise.nil (by simp)
      (by simp))
    rw [hzero, Int.zero_add] at hgive
    refine ⟨_, _, ?_, hgive⟩
    rw [if_pos (by simp), hmask]
  | true =>
    rw [if_neg (by simp)]
    cases fl with
    | nil => exact absurd rfl (h.onList.1 hlist)
    | cons a rest =>
      obtain ⟨f, n⟩ := a
      have hchain := h.chain
      obtain ⟨hfree, hn, next, hnext, henc, hrest⟩ := id h.chain
      simp only at hfree hn henc
      have hf := h.sep (a := (f, n)) mem_cons_self
      simp only at hf
      rw [hfree] at hchain ⊢
      by_cases hlt : blk.start < f
      · rw [if_pos hlt]
        by_cases htouch : blk.start + unitsOf c blk.size = f
        · rw [if_pos htouch]
          exact ⟨_, _, rfl, h.give_first
            (joined_merge hstart (by omega) htouch hchain h.apart h.bounds)⟩
        rw [if_neg htouch]
        refine ⟨_, _, rfl, h.give_first
          (joined_keep hstart (by omega) hend (by omega) hchain h.apart
          (fun a ha => ?_) h.bounds)⟩
        rcases mem_cons.1 ha with rfl | ha
        · dsimp only
          omega
        · have : f + n < a.1 := (pairwise_cons.1 h.apart).1 a ha
          omega
      · rw [if_neg hlt, henc.slobNext_eq hnext]
        have hf0 := (h.bounds (f, n) mem_cons_self).1
        simp only at hf0
        obtain ⟨s, hrun, hs, hle⟩ := Pass.run_of_next (fun s hs => freePass_next h hs)
          (c.pageUnits + 1) (s := (f, next))
          ⟨[], n, rest, rfl, by dsimp only; omega, hfree, henc, hnext, hrest⟩
          (by dsimp only; omega)
        obtain ⟨fl', hok⟩ := freeNext_spec h hs hle
        refine ⟨_, fl', ?_, hok⟩
        rw [hrun, hfree]
        rfl

/-- The calls on a page that is on the free list, for a size up to that of a page. -/
def Legal (c : Conf) (p : SlobPage) (size align : ℕ) : Prop :=
  p.onList = true ∧ (1 ≤ size ∧ size ≤ 2 ^ c.unitShift * c.pageUnits)
    ∧ (align = 0 ∨ ∃ k, align = 2 ^ k)

lemma Reach.pageOk (hr : Reach c (Legal c) p live) : ∃ fl, PageOk c p live fl := by
  induction hr with
  | fresh mem => exact ⟨_, fresh_ok c mem⟩
  | write mem _ hmem ih =>
    obtain ⟨fl, h⟩ := ih
    exact ⟨fl, h.write hmem⟩
  | alloc _ hok he ih =>
    obtain ⟨fl, h⟩ := ih
    obtain ⟨hlist, ⟨h1, h2⟩, ha⟩ := hok
    obtain ⟨r, hr, hres⟩ := slobPageAlloc_spec h hlist h1 h2 _
    obtain rfl := Option.some.inj (he.symm.trans hr)
    rcases hres with hnone | ⟨pre, s, n, rest, hfl, hroom, hsome⟩
    · cases hnone
    · obtain ⟨hb, hp⟩ := Prod.mk.inj hsome
      obtain rfl := Option.some.inj hb
      subst hp
      exact ⟨_, h.alloc h1 h2 ha hfl hroom⟩
  | noRoom _ hok he ih =>
    obtain ⟨fl, h⟩ := ih
    obtain ⟨hlist, ⟨h1, h2⟩, ha⟩ := hok
    obtain ⟨r, hr, hres⟩ := slobPageAlloc_spec h hlist h1 h2 _
    obtain rfl := Option.some.inj (he.symm.trans hr)
    rcases hres with hnone | ⟨pre, s, n, rest, -, -, hsome⟩
    · obtain ⟨-, rfl⟩ := Prod.mk.inj hnone
      exact ⟨fl, h⟩
    · cases (Prod.mk.inj hsome).1
  | free _ he ih =>
    obtain ⟨fl, h⟩ := ih
    rcases slobFree_spec h with ⟨-, hleft⟩ | ⟨-, p', fl', hkept, h'⟩
    · rw [hleft] at he
      cases he
    · rw [hkept] at he
      cases he
      exact ⟨fl', h'⟩

/-- The free list, read from `a` on with `slob_units` and `slob_next`, up to the page end. -/
def Walks (c : Conf) (mem : Mem) : ℤ → List Blk → Prop
  | a, [] => a = c.pageUnits
  | a, blk :: l => a = blk.1 ∧ slobUnits mem a = blk.2 ∧ Walks c mem (slobNext mem a) l

lemma Chain.walks : ∀ {l : List Blk} {a : ℤ}, Chain mem a l c.pageUnits →
    Walks c mem a l
  | [], _, h => h
  | blk :: l, a, ⟨ha, hpos, next, hnext, henc, h⟩ => by
    subst ha
    refine ⟨rfl, henc.slobUnits_eq hpos hnext, ?_⟩
    rw [henc.slobNext_eq hnext]
    exact h.walks

def conf4k : Conf := ⟨1, 2048, 0, by decide, by decide, Nat.dvd_zero _⟩

end LinuxKernel.Slob
