import LinuxKernel.Proofs.IdrNext

/-!
# Calling a function for each id

The walk starts at id 0, so it enters every missing subtree at its first id and passes no pointer
over. The step to `max` takes one element too many off its stack.
-/

namespace LinuxKernel.Lib

open SlotTree List

variable {b layers i l : ℕ} {α : Type*} {top p : IdrSlot b α} {pa : PathStack b α}
  {below : List (IdrSlot b α)} {leafOk : LayerInfo b → (Fin (2 ^ b) → IdrSlot b α) → Prop}
  {id : CInt} {s : EachWalk b α} {ids : Ids α}

/-- `paa` points behind the layers on the stack, and has never left the array. -/
structure StackOk (layers : ℕ) (pa : PathStack b α) : Prop where
  paa : pa.paa = pa.below.length
  seen : ∀ v ∈ pa.seen, 0 ≤ v ∧ v ≤ layers

lemma OnPath.length (h : OnPath layers top i l p below) :
    below.length + l = layers := by
  induction h with
  | top => simp
  | down _ ih =>
    simp only [length_cons]
    omega

lemma StackOk.push (h : StackOk layers pa) (hlt : pa.below.length < layers)
    (p : IdrSlot b α) : StackOk layers (pa.push p) := by
  have hpaa := h.paa
  refine ⟨?_, ?_⟩
  · simp only [PathStack.push, length_cons, Nat.cast_add, Nat.cast_one]
    omega
  intro v hv
  simp only [PathStack.push, mem_cons] at hv
  rcases hv with rfl | hv
  · omega
  · exact h.seen v hv

lemma StackOk.pop {q : IdrSlot b α} (h : StackOk layers pa)
    (hpa : pa.below = q :: below) (hle : pa.below.length ≤ layers) :
    pa.pop.1 = q ∧ pa.pop.2.below = below ∧ StackOk layers pa.pop.2 := by
  have hpaa := h.paa
  simp only [hpa, length_cons, Nat.cast_add, Nat.cast_one] at hpaa hle
  refine ⟨by simp [PathStack.pop, hpa], by simp [PathStack.pop, hpa], ?_, ?_⟩
  · simp only [PathStack.pop, hpa, tail_cons]
    omega
  intro v hv
  simp only [PathStack.pop, mem_cons] at hv
  rcases hv with rfl | hv
  · omega
  · exact h.seen v hv

lemma eachDescend_spec (hid : id.toNat < 2 ^ 31) :
    ∀ {l : ℕ} {p : IdrSlot b α} {pa : PathStack b α}, LayerOk leafOk l p →
      OnPath layers top id.toNat l p pa.below → StackOk layers pa →
      ∃ l' p' pa', eachDescend id l p pa = (l', p', pa')
        ∧ OnPath layers top id.toNat l' p' pa'.below ∧ StackOk layers pa' ∧ (p' = .null ∨ l' = 0)
  | 0, p, pa, _, hp, hs => by
    refine ⟨0, p, pa, ?_, hp, hs, .inr rfl⟩
    cases p <;> rfl
  | l + 1, p, pa, hok, hp, hs => by
    rcases hok.node_cases with rfl | ⟨info, ary, rfl⟩
    · exact ⟨l + 1, .null, pa, rfl, hp, hs, .inl rfl⟩
    · rw [eachDescend, idIndex_eq l hid]
      have hlen := hp.length
      exact eachDescend_spec hid (hok.kids _) hp.down (hs.push (by omega) _)

lemma eachPop_spec (hid : id.toNat < 2 ^ (b * layers)) :
    ∀ {more l : ℕ} {p : IdrSlot b α} {pa : PathStack b α}, fls id ≤ b * (l + more) →
      OnPath layers top i l p pa.below → StackOk layers pa →
      ∃ l' p' pa', eachPop id more l p pa = (l', p', pa') ∧ OnPath layers top i l' p' pa'.below
        ∧ StackOk layers pa' ∧ id.toNat < 2 ^ (b * l')
  | 0, l, p, pa, hmore, hp, hs => ⟨l, p, pa, rfl, hp, hs, Nat.size_le.1 hmore⟩
  | more + 1, l, p, pa, hmore, hp, hs => by
    rw [eachPop]
    by_cases hlt : b * l < fls id
    · rw [if_pos hlt]
      have hsize : fls id ≤ b * layers := Nat.size_le.2 hid
      have hlen := hp.length
      cases hbelow : pa.below with
      | nil =>
        rw [hbelow, length_nil, zero_add] at hlen
        rw [hlen] at hlt
        omega
      | cons q below =>
        obtain ⟨hq, hrest, hs'⟩ := hs.pop hbelow (by omega)
        rw [hbelow] at hp
        cases hp with
        | down hp =>
          rw [hq]
          rw [← hrest] at hp
          exact eachPop_spec hid (by rwa [add_right_comm, add_assoc]) hp hs'
    · rw [if_neg hlt]
      exact ⟨l, p, pa, rfl, hp, hs, Nat.size_le.1 (not_lt.1 hlt)⟩

lemma eachPop_stop (h : fls id ≤ b * l) (more : ℕ) (p : IdrSlot b α)
    (pa : PathStack b α) : eachPop id more l p pa = (l, p, pa) := by
  cases more with
  | zero => rfl
  | succ more => rw [eachPop, if_neg (not_lt.2 h)]

lemma eachPop_last (hb : 0 < b) (hid : fls id = b * layers + 1) :
    ∀ {more l : ℕ} {p : IdrSlot b α} {pa : PathStack b α}, fls id ≤ b * (l + more) →
      OnPath layers top i l p pa.below → StackOk layers pa →
      ∃ init, (eachPop id more l p pa).2.2.seen = -1 :: init ∧ ∀ v ∈ init, 0 ≤ v ∧ v ≤ layers
  | more, l, p, pa, hmore, hp, hs => by
    have hle : b * l ≤ b * layers := Nat.mul_le_mul_left b hp.le
    cases more with
    | zero =>
      rw [add_zero] at hmore
      omega
    | succ more =>
      rw [eachPop, if_pos (by omega)]
      have hlen := hp.length
      cases hbelow : pa.below with
      | nil =>
        rw [hbelow, length_nil, zero_add] at hlen
        have hpaa := hs.paa
        rw [hbelow] at hpaa
        rw [eachPop_stop (by rw [hid, hlen, Nat.mul_succ]; omega)]
        refine ⟨pa.seen, ?_, hs.seen⟩
        simp [PathStack.pop, hpaa]
      | cons q below =>
        obtain ⟨hq, hrest, hs'⟩ := hs.pop hbelow (by omega)
        rw [hbelow] at hp
        cases hp with
        | down hp =>
          rw [hq]
          rw [← hrest] at hp
          exact eachPop_last hb hid (by rwa [add_right_comm, add_assoc]) hp hs'

/-- At the head of the loop: the calls are those of the ids passed, and the stack is in its array
until the last step has taken it to one below. -/
structure EachInv (layers : ℕ) (top : IdrSlot b α) (s : EachWalk b α) : Prop where
  le : s.id.toNat ≤ 2 ^ (b * layers)
  path : s.id.toNat < 2 ^ (b * layers) → OnPath layers top s.id.toNat s.l s.p s.pa.below
  stack : s.id.toNat < 2 ^ (b * layers) → StackOk layers s.pa
  aligned : s.id.toNat < 2 ^ (b * layers) → MissAligned layers top s.id.toNat
  finished : s.id.toNat = 2 ^ (b * layers) →
    ∃ init, s.pa.seen = -1 :: init ∧ ∀ v ∈ init, 0 ≤ v ∧ v ≤ layers
  ascending : s.calls.Pairwise fun c d => c.1.toNat < d.1.toNat
  calls : ∀ id p, (id, p) ∈ s.calls ↔
    id.toNat < s.id.toNat ∧ slotAt layers top id.toNat = p ∧ p.isNull = false

lemma calls_step (h : EachInv layers top s) (hp : OnPath layers top s.id.toNat l p below)
    (hend : p = .null ∨ l = 0) (hdvd : 2 ^ (b * l) ∣ s.id.toNat) :
    let calls := if p.isNull then s.calls else s.calls ++ [(s.id, p)]
    (calls.Pairwise fun c d => c.1.toNat < d.1.toNat) ∧ ∀ id q, (id, q) ∈ calls ↔
      id.toNat < s.id.toNat + 2 ^ (b * l) ∧ slotAt layers top id.toNat = q ∧ q.isNull = false := by
  cases hnull : p.isNull with
  | true =>
    obtain rfl := eq_null_of_isNull hnull
    simp only [if_pos]
    refine ⟨h.ascending, fun id q => (h.calls id q).trans ⟨fun hc => ⟨by omega, hc.2⟩, ?_⟩⟩
    rintro ⟨hlt, hq, hqn⟩
    refine ⟨?_, hq, hqn⟩
    by_contra hge
    -- the ids of the missing block have no pointer
    have hpos : 0 < 2 ^ (b * l) := by positivity
    obtain ⟨k, hk⟩ := hdvd
    have hblock : id.toNat / 2 ^ (b * l) = s.id.toNat / 2 ^ (b * l) := by
      rw [hk, Nat.mul_div_cancel_left _ hpos]
      refine Nat.div_eq_of_lt_le ?_ ?_
      · rw [mul_comm, ← hk]
        omega
      · rw [Nat.succ_mul, mul_comm, ← hk]
        exact hlt
    rw [hp.slotAt_eq hblock, slotAt_null] at hq
    rw [← hq] at hqn
    cases hqn
  | false =>
    have hl : l = 0 := by
      rcases hend with rfl | hl
      · cases hnull
      · exact hl
    subst hl
    have hslot : slotAt layers top s.id.toNat = p := by rw [hp.slotAt_eq rfl, slotAt_zero]
    simp only [Bool.false_eq_true, if_false, mul_zero, pow_zero]
    refine ⟨?_, fun id q => ?_⟩
    · rw [pairwise_append]
      refine ⟨h.ascending, pairwise_singleton _ _, ?_⟩
      rintro ⟨id, q⟩ hc d hd
      rw [mem_singleton.mp hd]
      exact ((h.calls id q).1 hc).1
    rw [mem_append, mem_singleton, Prod.mk.injEq, h.calls]
    constructor
    · rintro (hc | ⟨rfl, rfl⟩)
      · exact ⟨by omega, hc.2⟩
      · exact ⟨by omega, hslot, hnull⟩
    rintro ⟨hlt, hq, hqn⟩
    rcases lt_or_ge id.toNat s.id.toNat with hlt' | hge
    · exact .inl ⟨hlt', hq, hqn⟩
    · have hid : id = s.id := BitVec.eq_of_toNat_eq (by omega)
      subst hid
      exact .inr ⟨rfl, by rw [← hq, hslot]⟩

lemma eachPass_spec (hb : 0 < b) (hok : LayerOk leafOk layers top) (hlay : b * layers ≤ 30)
    (h : EachInv layers top s) :
    (eachPass (fun _ _ => 0) (1#32 <<< (b * layers)) s).Next (EachInv layers top)
      (fun r => r.1 = 0 ∧ EachInv layers top r.2 ∧ r.2.id.toNat = 2 ^ (b * layers))
      (fun s => 2 ^ (b * layers) - s.id.toNat) (2 ^ (b * layers) - s.id.toNat) := by
  have hmax : 2 ^ (b * layers) ≤ 2 ^ 30 := Nat.pow_le_pow_right (by norm_num) hlay
  have hle := h.le
  rw [eachPass, slt_max (by omega) hlay]
  by_cases hid : s.id.toNat < 2 ^ (b * layers)
  · rw [if_pos (by simpa using hid)]
    have hpath := h.path hid
    obtain ⟨l, p, pa, hd, hp, hs, hend⟩ := eachDescend_spec (by omega) (hpath.layerOk hok) hpath
      (h.stack hid)
    simp only [hd, ite_self, ne_eq, not_true_eq_false, if_false]
    have hl : b * l ≤ b * layers := Nat.mul_le_mul_left b hp.le
    have hdvd : 2 ^ (b * l) ∣ s.id.toNat := by
      rcases hend with rfl | rfl
      · have := hp.missAligned.1 (h.aligned hid)
        cases l <;> exact this
      · simp
    have hroom : s.id.toNat + 2 ^ (b * l) ≤ 2 ^ (b * layers) := by
      have := Nat.le_of_dvd (Nat.sub_pos_of_lt hid) (Nat.dvd_sub (pow_dvd_pow 2 hl) hdvd)
      omega
    have hadd : (s.id + 1#32 <<< (b * l)).toNat = s.id.toNat + 2 ^ (b * l) := by
      rw [BitVec.toNat_add, one_shiftLeft_toNat (hl.trans hlay), Nat.mod_eq_of_lt (by omega)]
    obtain ⟨hasc, hcalls⟩ := calls_step h hp hend hdvd
    generalize s.id + 1#32 <<< (b * l) = id at hadd ⊢
    have hmore : fls id ≤ b * (l + fls id) := by
      calc fls id ≤ l + fls id := Nat.le_add_left _ _
        _ ≤ b * (l + fls id) := Nat.le_mul_of_pos_left _ hb
    rcases Nat.lt_or_eq_of_le hroom with hlt | heq
    · rw [← hadd] at hlt
      obtain ⟨l', p', pa', hpop, hp', hs', hid'⟩ := eachPop_spec hlt hmore hp hs
      simp only [hpop]
      refine ⟨⟨hlt.le, fun _ => hp'.congr ?_, fun _ => hs', fun _ => ?_, fun he => ?_, hasc,
        ?_⟩, ?_⟩
      · rw [Nat.div_eq_of_lt hid', Nat.div_eq_of_lt (by omega)]
      · rw [hadd] at hlt ⊢
        exact hp.next_aligned hdvd hlt
      · exact absurd he hlt.ne
      · rwa [hadd]
      · simp only [hadd]
        omega
    · have hfls : fls id = b * layers + 1 := by rw [fls, hadd, heq, Nat.size_pow]
      have hlast := eachPop_last hb hfls hmore hp hs
      generalize eachPop id (fls id) l p pa = r at hlast
      rw [heq] at hadd hcalls
      refine ⟨⟨hadd.le, fun hlt => ?_, fun hlt => ?_, fun hlt => ?_, fun _ => hlast, hasc, ?_⟩, ?_⟩
      · exact absurd hadd hlt.ne
      · exact absurd hadd hlt.ne
      · exact absurd hadd hlt.ne
      · rwa [hadd]
      · simp only [hadd]
        omega
  · rw [if_neg (by simpa using hid)]
    exact ⟨rfl, h, le_antisymm hle (not_lt.1 hid)⟩

lemma idrForEach_spec {idp : Idr b α} (hb : 0 < b) (h : IdrOk leafOk idp) :
    ∃ calls seen, idrForEach idp (fun _ _ => 0) = some (0, calls, -1 :: seen)
      ∧ (calls.Pairwise fun c d => c.1.toNat < d.1.toNat)
      ∧ (∀ id p, (id, p) ∈ calls ↔ rootPtr idp.layers idp.top id.toNat = p ∧ p.isNull = false)
      ∧ ∀ v ∈ seen, 0 ≤ v ∧ v ≤ idp.layers := by
  have hpos : 0 < 2 ^ (b * idp.layers) := by positivity
  have hinv : EachInv idp.layers idp.top ⟨0#32, idp.layers, idp.top, ⟨[], 0, [0]⟩, []⟩ := by
    refine ⟨by simp, fun _ => .top, fun _ => ⟨rfl, by simp⟩, fun _ => ?_, fun he => ?_,
      List.Pairwise.nil, by simp⟩
    · exact missAligned_of_dvd _ (by simp)
    · exact absurd he hpos.ne
  obtain ⟨r, hrun, hzero, hr, hend⟩ := Pass.run_of_next
    (fun s hs => eachPass_spec hb h.ok h.layers_lt hs) (2 ^ (b * idp.layers) + 1) hinv
    (Nat.lt_succ_of_le (Nat.sub_le _ _))
  obtain ⟨init, hseen, hbound⟩ := hr.finished hend
  refine ⟨r.2.calls, init, ?_, hr.ascending, fun id p => ?_, hbound⟩
  · rw [idrForEach, one_shiftLeft_toNat h.layers_lt, hrun, Option.map_some, hzero, hseen]
  rw [hr.calls, hend, rootPtr]
  split_ifs with hlt
  · simp [hlt]
  · refine ⟨fun hc => absurd hc.1 hlt, ?_⟩
    rintro ⟨rfl, hn⟩
    cases hn

end LinuxKernel.Lib
