import LinuxKernel.IpFragment

/-!
# A fragment queue is sorted and disjoint

Each path through `ip_frag_queue` leaves fragments that are in order and disjoint, end by `q.len`
and add up to `q.meat`. With the two equal there is no room for a hole (`tiles_of_sum`).
-/

namespace LinuxKernel.IpFragment

open List

variable {β : Type*} {received : List (Skb β)} {qp qp' : Ipq β} {env : Env} {skb : Skb β}
  {f : Frag β} {fin offset : ℕ} {data : List β}

def Before (a b : Frag β) : Prop := a.offset + a.len ≤ b.offset

def total (fs : List (Frag β)) : ℕ := (fs.map Frag.len).sum

def Tiles : ℕ → List (Frag β) → ℕ → Prop
  | lo, [], hi => lo = hi
  | lo, f :: fs, hi => f.offset = lo ∧ Tiles (lo + f.len) fs hi

@[simp] lemma total_nil : total ([] : List (Frag β)) = 0 := rfl

@[simp] lemma total_cons (f : Frag β) (fs : List (Frag β)) :
    total (f :: fs) = f.len + total fs := by simp [total]

@[simp] lemma total_append (fs gs : List (Frag β)) : total (fs ++ gs) = total fs + total gs := by
  simp [total]

lemma total_le {hi : ℕ} : ∀ {lo : ℕ} {fs : List (Frag β)}, fs.Pairwise Before →
    (∀ f ∈ fs, lo ≤ f.offset ∧ f.offset + f.len ≤ hi) → lo ≤ hi → total fs + lo ≤ hi
  | lo, [], _, _, hle => by simpa using hle
  | lo, f :: fs, hs, hin, hle => by
    obtain ⟨hf, hs⟩ := pairwise_cons.1 hs
    obtain ⟨h1, h2⟩ := hin f mem_cons_self
    have : total fs + (f.offset + f.len) ≤ hi := total_le hs
      (fun g hg => ⟨hf g hg, (hin g (mem_cons_of_mem _ hg)).2⟩) h2
    rw [total_cons]
    omega

lemma tiles_of_sum {hi : ℕ} : ∀ {lo : ℕ} {fs : List (Frag β)}, fs.Pairwise Before →
    (∀ f ∈ fs, lo ≤ f.offset ∧ f.offset + f.len ≤ hi) → total fs + lo = hi → Tiles lo fs hi
  | lo, [], _, _, hsum => by
    rw [total_nil, zero_add] at hsum
    exact hsum
  | lo, f :: fs, hs, hin, hsum => by
    obtain ⟨hf, hs⟩ := pairwise_cons.1 hs
    obtain ⟨h1, h2⟩ := hin f mem_cons_self
    have hin' : ∀ g ∈ fs, f.offset + f.len ≤ g.offset ∧ g.offset + g.len ≤ hi := fun g hg =>
      ⟨hf g hg, (hin g (mem_cons_of_mem _ hg)).2⟩
    have hle := total_le hs hin' h2
    rw [total_cons] at hsum
    have hoff : f.offset = lo := by omega
    refine ⟨hoff, ?_⟩
    rw [hoff] at hin'
    exact tiles_of_sum hs hin' (by omega)

def Carried (received : List (Skb β)) (i : ℕ) (x : β) : Prop :=
  ∃ skb ∈ received, skb.fragOff * 8 ≤ i ∧ skb.payload[i - skb.fragOff * 8]? = some x

def FragOk (received : List (Skb β)) (f : Frag β) : Prop :=
  ∀ k x, f.data[k]? = some x → Carried received (f.offset + k) x

structure IpqOk (received : List (Skb β)) (qp : Ipq β) : Prop where
  sorted : qp.fragments.Pairwise Before
  meat : qp.meat = total qp.fragments
  ends : ∀ f ∈ qp.fragments, f.offset + f.len ≤ qp.len
  bytes : ∀ f ∈ qp.fragments, FragOk received f

lemma FragOk.mono (h : FragOk received f) :
    FragOk (skb :: received) f := by
  intro k x hx
  obtain ⟨s, hs, h1⟩ := h k x hx
  exact ⟨s, mem_cons_of_mem _ hs, h1⟩

lemma FragOk.drop (h : FragOk received f) (i : ℕ) :
    FragOk received ⟨f.offset + i, f.data.drop i⟩ := by
  intro k x hx
  have := h (i + k) x (by rwa [List.getElem?_drop] at hx)
  rwa [← add_assoc] at this

lemma IpqOk.mono (h : IpqOk received qp) : IpqOk (skb :: received) qp :=
  ⟨h.sorted, h.meat, h.ends, fun f hf => (h.bytes f hf).mono⟩

lemma IpqOk.flags (h : IpqOk received qp) (hf : qp'.fragments = qp.fragments)
    (hm : qp'.meat = qp.meat) (hl : qp.len ≤ qp'.len) : IpqOk received qp' := by
  refine ⟨by rw [hf]; exact h.sorted, by rw [hf, hm]; exact h.meat, fun f hmem => ?_, fun f hmem => ?_⟩
  · rw [hf] at hmem
    exact (h.ends f hmem).trans hl
  · rw [hf] at hmem
    exact h.bytes f hmem

structure Eaten (received : List (Skb β)) (lo fin len : ℕ) (meat : ℤ)
    (r : (List (Frag β) × ℤ) × Bool) : Prop where
  sorted : r.1.1.Pairwise Before
  meat : r.1.2 = meat + total r.1.1
  ends : ∀ f ∈ r.1.1, f.offset + f.len ≤ len
  bytes : ∀ f ∈ r.1.1, FragOk received f
  from_lo : ∀ f ∈ r.1.1, lo ≤ f.offset
  past : r.2 = true → ∀ f ∈ r.1.1, fin ≤ f.offset

lemma eatNext_spec {lo len : ℕ} {meat : ℤ} : ∀ {next : List (Frag β)}, next.Pairwise Before →
    (∀ f ∈ next, lo ≤ f.offset ∧ f.offset + f.len ≤ len) → (∀ f ∈ next, FragOk received f) →
    Eaten received lo fin len meat (eatNext env fin next (meat + total next))
  | [], _, _, _ => by refine ⟨List.Pairwise.nil, rfl, ?_, ?_, ?_, ?_⟩ <;> simp [eatNext]
  | f :: fs, hs, hin, hb => by
    obtain ⟨hf, hs'⟩ := pairwise_cons.1 hs
    obtain ⟨h1, h2⟩ := hin f mem_cons_self
    rw [eatNext]
    by_cases hover : f.offset < fin
    · rw [if_pos hover]
      by_cases hhead : fin - f.offset < f.len
      · rw [if_pos hhead]
        by_cases hpull : env.pullNext = true
        · rw [if_pos hpull]
          have hlen : (f.data.drop (fin - f.offset)).length = f.len - (fin - f.offset) :=
            length_drop
          refine ⟨pairwise_cons.2 ⟨fun g hg => ?_, hs'⟩, ?_, fun g hg => ?_, fun g hg => ?_,
            fun g hg => ?_, fun _ g hg => ?_⟩
          · have : f.offset + f.len ≤ g.offset := hf g hg
            show f.offset + (fin - f.offset) + (f.data.drop (fin - f.offset)).length ≤ g.offset
            omega
          · simp only [total_cons, Frag.len, length_drop]
            simp only [Frag.len] at hhead
            omega
          · rcases mem_cons.1 hg with rfl | hg
            · show f.offset + (fin - f.offset) + (f.data.drop (fin - f.offset)).length ≤ len
              omega
            · exact (hin g (mem_cons_of_mem _ hg)).2
          · rcases mem_cons.1 hg with rfl | hg
            · exact (hb f mem_cons_self).drop _
            · exact hb g (mem_cons_of_mem _ hg)
          · rcases mem_cons.1 hg with rfl | hg
            · dsimp only
              omega
            · exact (hin g (mem_cons_of_mem _ hg)).1
          · rcases mem_cons.1 hg with rfl | hg
            · dsimp only
              omega
            · have : f.offset + f.len ≤ g.offset := hf g hg
              omega
        · rw [if_neg hpull]
          exact ⟨hs, rfl, fun g hg => (hin g hg).2, hb, fun g hg => (hin g hg).1, nofun⟩
      · rw [if_neg hhead]
        have hmeat : meat + (total (f :: fs) : ℕ) - f.len = meat + total fs := by
          rw [total_cons]
          push_cast
          ring
        rw [hmeat]
        exact eatNext_spec hs' (fun g hg => hin g (mem_cons_of_mem _ hg))
          (fun g hg => hb g (mem_cons_of_mem _ hg))
    · rw [if_neg hover]
      refine ⟨hs, rfl, fun g hg => (hin g hg).2, hb, fun g hg => (hin g hg).1, fun _ g hg => ?_⟩
      rcases mem_cons.1 hg with rfl | hg
      · omega
      · have : f.offset + f.len ≤ g.offset := hf g hg
        omega

/-- What a call leaves: a queue in order, and one without holes where `ip_frag_reasm` is entered. -/
def QueueOk (received : List (Skb β)) (r : Ipq β × QueueResult) : Prop :=
  IpqOk received r.1 ∧ (r.2 = .reasm → Tiles 0 r.1.fragments r.1.len)

lemma IpqOk.queueOk_err (h : IpqOk received qp) (code : ℤ) : QueueOk received (qp, .err code) :=
  ⟨h, nofun⟩

lemma insertFrag_spec (h : IpqOk received qp) {before next : List (Frag β)}
    (hfs : qp.fragments = before ++ next)
    (hdata : data.length = fin - offset) (hlt : offset < fin) (hfin : fin ≤ qp.len)
    (hbytes : FragOk received ⟨offset, data⟩) (hbefore : ∀ f ∈ before, f.offset + f.len ≤ offset)
    (hnext : ∀ f ∈ next, offset ≤ f.offset) :
    QueueOk received (insertFrag env qp before next offset fin data) := by
  have hsorted := h.sorted
  have hmeat := h.meat
  rw [hfs] at hsorted hmeat
  rw [total_append] at hmeat
  obtain ⟨hb, hn, hacross⟩ := pairwise_append.1 hsorted
  have hends : ∀ f ∈ before ++ next, f.offset + f.len ≤ qp.len :=
    fun f hf => h.ends f (by rwa [hfs])
  have hok : ∀ f ∈ before ++ next, FragOk received f := fun f hf => h.bytes f (by rwa [hfs])
  have heaten : Eaten received offset fin qp.len (total before)
      (eatNext env fin next (total before + total next)) := eatNext_spec hn
    (fun f hf => ⟨hnext f hf, hends f (mem_append_right _ hf)⟩)
    (fun f hf => hok f (mem_append_right _ hf))
  have hm : (total before : ℤ) + total next = qp.meat := by rw [hmeat]; push_cast; rfl
  rw [hm] at heaten
  unfold insertFrag
  generalize eatNext env fin next qp.meat = r at heaten ⊢
  obtain ⟨⟨rest, meat⟩, went⟩ := r
  obtain ⟨hs, hmt, he, hby, hlo, hpast⟩ := heaten
  simp only at hs hmt he hby hlo hpast ⊢
  cases went with
  | false =>
    rw [if_pos (by simp)]
    refine ⟨⟨?_, ?_, ?_, ?_⟩, nofun⟩
    · refine pairwise_append.2 ⟨hb, hs, fun f hf g hg => ?_⟩
      exact (hbefore f hf).trans (hlo g hg)
    · simp only [hmt, total_append]
      push_cast
      rfl
    · intro f hf
      rcases mem_append.1 hf with hf | hf
      · exact hends f (mem_append_left _ hf)
      · exact he f hf
    · intro f hf
      rcases mem_append.1 hf with hf | hf
      · exact hok f (mem_append_left _ hf)
      · exact hby f hf
  | true =>
    rw [if_neg (by simp)]
    have hlen : (⟨offset, data⟩ : Frag β).len = fin - offset := hdata
    have hins : IpqOk received { qp with
        fragments := before ++ ⟨offset, data⟩ :: rest
        meat := meat + data.length
        firstIn := qp.firstIn || decide (offset = 0) } := by
      refine ⟨?_, ?_, ?_, ?_⟩
      · refine pairwise_append.2 ⟨hb, pairwise_cons.2 ⟨fun g hg => ?_, hs⟩, fun f hf g hg => ?_⟩
        · have := hpast rfl g hg
          show offset + (⟨offset, data⟩ : Frag β).len ≤ g.offset
          omega
        · rcases mem_cons.1 hg with rfl | hg
          · exact hbefore f hf
          · exact (hbefore f hf).trans (hlo g hg)
      · simp only [hmt, total_append, total_cons, Frag.len]
        push_cast
        ring
      · intro f hf
        rcases mem_append.1 hf with hf | hf
        · exact hends f (mem_append_left _ hf)
        · rcases mem_cons.1 hf with rfl | hf
          · dsimp only
            omega
          · exact he f hf
      · intro f hf
        rcases mem_append.1 hf with hf | hf
        · exact hok f (mem_append_left _ hf)
        · rcases mem_cons.1 hf with rfl | hf
          · exact hbytes
          · exact hby f hf
    split_ifs with hall
    · refine ⟨hins.flags rfl rfl le_rfl, fun _ => ?_⟩
      refine tiles_of_sum hins.sorted (fun f hf => ⟨Nat.zero_le _, hins.ends f hf⟩) ?_
      have h1 := hins.meat
      have h2 := hall.2.2.2
      simp only at h1 h2
      rw [h1] at h2
      rw [add_zero]
      exact_mod_cast h2
    · exact ⟨hins, nofun⟩

lemma le_of_mem_dropWhile (offset : ℕ) : ∀ {fs : List (Frag β)}, fs.Pairwise Before →
    ∀ f ∈ fs.dropWhile fun f => decide (f.offset < offset), offset ≤ f.offset
  | [], _, f, hf => by simp at hf
  | g :: fs, hs, f, hf => by
    obtain ⟨hg, hs⟩ := pairwise_cons.1 hs
    rw [dropWhile_cons] at hf
    split_ifs at hf with hlt
    · exact le_of_mem_dropWhile offset hs f hf
    rw [decide_eq_true_eq, not_lt] at hlt
    rcases mem_cons.1 hf with rfl | hf
    · exact hlt
    · have : g.offset + g.len ≤ f.offset := hg f hf
      omega

lemma placeFrag_spec (h : IpqOk received qp)
    (hdata : data.length = fin - offset) (hlt : offset < fin) (hfin : fin ≤ qp.len)
    (hbytes : FragOk received ⟨offset, data⟩) :
    QueueOk received (placeFrag env qp offset fin data) := by
  have hfs := (takeWhile_append_dropWhile (p := fun f : Frag β => decide (f.offset < offset))
    (l := qp.fragments)).symm
  have hnext := le_of_mem_dropWhile offset h.sorted
  unfold placeFrag
  generalize qp.fragments.takeWhile (fun f => decide (f.offset < offset)) = before at *
  generalize qp.fragments.dropWhile (fun f => decide (f.offset < offset)) = next at *
  have hsorted := h.sorted
  rw [hfs] at hsorted
  dsimp only
  cases hlast : before.getLast? with
  | none =>
    obtain rfl : before = [] := getLast?_eq_none_iff.1 hlast
    exact insertFrag_spec h hfs hdata hlt hfin hbytes (by simp) hnext
  | some prev =>
    obtain ⟨front, rfl⟩ := getLast?_eq_some_iff.1 hlast
    dsimp only
    -- every fragment in front ends by the last of them
    have hfront : ∀ f ∈ front ++ [prev], f.offset + f.len ≤ prev.offset + prev.len := by
      intro f hf
      rcases mem_append.1 hf with hf | hf
      · have : f.offset + f.len ≤ prev.offset :=
          (pairwise_append.1 (pairwise_append.1 hsorted).1).2.2 f hf prev (by simp)
        omega
      · obtain rfl := mem_singleton.1 hf
        exact le_rfl
    have hafter : ∀ f ∈ next, prev.offset + prev.len ≤ f.offset := fun f hf =>
      (pairwise_append.1 hsorted).2.2 prev (by simp) f hf
    split_ifs with hover hend hpull
    · exact h.queueOk_err _
    · refine insertFrag_spec h hfs ?_ (by omega) hfin (hbytes.drop _) (fun f hf => ?_)
        (fun f hf => ?_)
      · rw [length_drop, hdata]
        omega
      · have := hfront f hf
        omega
      · have := hafter f hf
        omega
    · exact h.queueOk_err _
    · refine insertFrag_spec h hfs hdata hlt hfin hbytes (fun f hf => ?_) hnext
      have := hfront f hf
      omega

lemma checkEnd_spec {mf : Bool} {plen : ℕ}
    (h : checkEnd qp mf (offset * 8 + plen) = .ok (fin, qp')) :
    qp'.fragments = qp.fragments ∧ qp'.meat = qp.meat ∧ qp.len ≤ qp'.len ∧ fin ≤ qp'.len
      ∧ offset * 8 ≤ fin ∧ fin ≤ offset * 8 + plen := by
  unfold checkEnd at h
  dsimp only at h
  split_ifs at h with hmf hbad hlast hless
  all_goals
    obtain ⟨rfl, rfl⟩ := Prod.mk.inj (Except.ok.inj h)
    refine ⟨rfl, rfl, ?_, ?_, ?_, ?_⟩ <;> first | omega | (dsimp only; omega)

lemma queueFrag_spec (h : IpqOk received qp) (skb : Skb β) (hmem : skb ∈ received) :
    QueueOk received (queueFrag env qp skb) := by
  unfold queueFrag
  dsimp only
  cases hc : checkEnd qp skb.mf (skb.fragOff * 8 + skb.payload.length) with
  | error e => exact h.queueOk_err _
  | ok r =>
    obtain ⟨fin, qp'⟩ := r
    obtain ⟨hf, hm, hl, hfin, hlo, hhi⟩ := checkEnd_spec hc
    have h' : IpqOk received qp' := h.flags hf hm hl
    dsimp only
    split_ifs with hempty hpull htrim
    · exact h'.queueOk_err _
    · exact h'.queueOk_err _
    · refine placeFrag_spec h' ?_ (by omega) hfin fun k x hx => ?_
      · rw [length_take]
        omega
      · refine ⟨skb, hmem, Nat.le_add_right _ _, ?_⟩
        rw [Nat.add_sub_cancel_left]
        rw [List.getElem?_take] at hx
        split_ifs at hx
        exact hx
    · exact h'.queueOk_err _

lemma ipqInit_ok : IpqOk received (ipqInit : Ipq β) :=
  ⟨List.Pairwise.nil, rfl, by simp [ipqInit], by simp [ipqInit]⟩

lemma ipFragQueue_spec (h : IpqOk received qp) (env : Env) (skb : Skb β) :
    QueueOk (skb :: received) (ipFragQueue env qp skb) := by
  have h' : IpqOk (skb :: received) qp := h.mono
  unfold ipFragQueue ipFragReinit
  split_ifs with hcomplete hfar htimer
  · exact h'.queueOk_err _
  · exact queueFrag_spec ipqInit_ok skb mem_cons_self
  · have hkilled : IpqOk (skb :: received) { qp with complete := true } := h'.flags rfl rfl le_rfl
    exact hkilled.queueOk_err _
  · exact queueFrag_spec h' skb mem_cons_self

lemma Reach.ipqOk (hr : Reach qp received) : IpqOk received qp := by
  induction hr with
  | init => exact ipqInit_ok
  | queue env skb _ ih => exact (ipFragQueue_spec ih env skb).1

section

open Lib (EINVAL)

lemma insertFrag_ne (before next : List (Frag β)) (offset fin : ℕ) (data : List β) :
    (insertFrag env qp before next offset fin data).2 ≠ .err (-EINVAL) := by
  unfold insertFrag
  dsimp only
  split_ifs <;> simp [ENOMEM, EINVAL]

/-- Only a fragment that the one before it covers is malformed here. -/
lemma placeFrag_rejects
    (he : (placeFrag env qp offset fin data).2 = .err (-EINVAL)) :
    (placeFrag env qp offset fin data).1 = qp
      ∧ ∃ prev ∈ qp.fragments, fin ≤ prev.offset + prev.len := by
  unfold placeFrag at he ⊢
  dsimp only at he ⊢
  cases hprev : (qp.fragments.takeWhile fun f => f.offset < offset).getLast? with
  | none =>
    rw [hprev] at he
    exact absurd he (insertFrag_ne _ _ _ _ _)
  | some prev =>
    rw [hprev] at he
    have hmem : prev ∈ qp.fragments := takeWhile_subset _ (mem_of_getLast? hprev)
    dsimp only at he ⊢
    split_ifs at he ⊢ with hover hfin
    · exact ⟨rfl, prev, hmem, by omega⟩
    · exact absurd he (insertFrag_ne _ _ _ _ _)
    · simp [ENOMEM, EINVAL] at he
    · exact absurd he (insertFrag_ne _ _ _ _ _)

lemma checkEnd_keeps {mf : Bool} {plen : ℕ}
    (h : checkEnd qp mf (offset * 8 + plen) = .ok (fin, qp')) (hlen : (if mf then 8 else 1) ≤ plen)
    (hlast : mf = true ∨ qp.lastIn = true) : fin ≠ offset * 8 ∧ (fin ≤ qp.len → qp' = qp) := by
  unfold checkEnd at h
  cases mf with
  | false =>
    simp only [Bool.false_eq_true, not_false_eq_true, if_true, if_false, false_or] at h hlen hlast
    split_ifs at h with hbad
    obtain ⟨rfl, rfl⟩ := Prod.mk.inj (Except.ok.inj h)
    rw [not_or, not_and, not_not] at hbad
    refine ⟨by omega, fun _ => ?_⟩
    rw [hbad.2 hlast, ← hlast]
  | true =>
    simp only [not_true_eq_false, if_true, if_false] at h hlen
    split_ifs at h with hless hin
    all_goals
      obtain ⟨rfl, rfl⟩ := Prod.mk.inj (Except.ok.inj h)
      refine ⟨by omega, fun hle => ?_⟩
    · exact absurd hless (not_lt.mpr hle)
    · rfl

end

lemma Tiles.flatMap {hi : ℕ} : ∀ {lo : ℕ} {fs : List (Frag β)}, Tiles lo fs hi →
    (∀ f ∈ fs, FragOk received f) → lo + (fs.flatMap Frag.data).length = hi
      ∧ ∀ i x, (fs.flatMap Frag.data)[i]? = some x → Carried received (lo + i) x
  | _, [], ht, _ => ⟨ht, nofun⟩
  | _, f :: fs, ⟨rfl, ht⟩, hok => by
    obtain ⟨hlen, hbytes⟩ := ht.flatMap fun g hg => hok g (mem_cons_of_mem _ hg)
    rw [flatMap_cons, length_append]
    refine ⟨by rw [← hlen, Frag.len, add_assoc], fun i x hx => ?_⟩
    rw [getElem?_append] at hx
    split_ifs at hx with hi
    · exact hok f mem_cons_self i x hx
    · have := hbytes _ x hx
      rwa [Frag.len, add_assoc, Nat.add_sub_cancel' (not_lt.1 hi)] at this

/-- The length in the header of a reassembled datagram is its own, and each byte was received at its
offset. -/
theorem ipFragReasm_carried {clone expand : Bool} {ihlen totLen : ℕ} (hr : Reach qp received)
    (hq : ipFragQueue env qp skb = (qp', .reasm))
    (h : ipFragReasm clone expand ihlen qp' = .ok (totLen, data)) :
    totLen = ihlen + data.length ∧ totLen ≤ 65535
      ∧ ∀ i x, data[i]? = some x → Carried (skb :: received) i x := by
  obtain ⟨hok, htiles⟩ := ipFragQueue_spec hr.ipqOk env skb
  rw [hq] at hok htiles
  obtain ⟨hlen, hbytes⟩ := (htiles rfl).flatMap hok.bytes
  simp only [zero_add] at hlen hbytes
  unfold ipFragReasm at h
  split_ifs at h with _ hbig
  cases h
  exact ⟨by rw [hlen], by omega, hbytes⟩

theorem ipFragReasm_carried_two : ∃ data : List ℕ, data.length = 9 ∧ ∀ i x, data[i]? = some x →
    Carried [⟨0, true, [1, 2, 3, 4, 5, 6, 7, 8], false⟩, ⟨1, false, [9], false⟩] i x := by
  let env : Env := ⟨false, true, true, 0, true, true⟩
  have h := @ipFragReasm_carried _ _ _ _ env ⟨0, true, [1, 2, 3, 4, 5, 6, 7, 8], false⟩ _
    true true 20 _ (Reach.init.queue env (⟨1, false, [9], false⟩ : Skb ℕ)) rfl rfl
  exact ⟨_, rfl, h.2.2⟩

end LinuxKernel.IpFragment
