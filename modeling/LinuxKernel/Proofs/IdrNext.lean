import LinuxKernel.IdrNext
import LinuxKernel.Proofs.Idr

/-!
# The next id in use

A round of `idr_get_next` that meets a missing subtree moves on by the size of that subtree, so it
steps over ids when it entered the subtree elsewhere than at its first id. If the first one starts
at `*nextidp` the others are entered at their first id too.
-/

namespace LinuxKernel.Lib

open SlotTree

variable {b layers : ℕ} {α : Type*} {top : IdrSlot b α}
  {leafOk : LayerInfo b → (Fin (2 ^ b) → IdrSlot b α) → Prop} {id : CInt} {ids : Ids α}

section

/-- On the way from the top towards id `i`: the slot `p` above `l` layers, and the layers passed. -/
inductive OnPath (layers : ℕ) (top : IdrSlot b α) (i : ℕ) :
    ℕ → IdrSlot b α → List (IdrSlot b α) → Prop
  | top : OnPath layers top i layers top []
  | down {l : ℕ} {info : LayerInfo b} {ary : Fin (2 ^ b) → IdrSlot b α}
      {pa : List (IdrSlot b α)} : OnPath layers top i (l + 1) (.node info ary) pa →
      OnPath layers top i l (ary (digit b l i)) (.node info ary :: pa)

/-- The missing subtree on the way to id `i`, if there is one, starts at `i`. -/
def MissAligned : ℕ → IdrSlot b α → ℕ → Prop
  | h, .null, i => 2 ^ (b * h) ∣ i
  | h + 1, .node _ ary, i => MissAligned h (ary (digit b h i)) i
  | _, _, _ => True

variable {i i' j l : ℕ} {p : IdrSlot b α} {pa : List (IdrSlot b α)}

lemma block_succ (hq : j / 2 ^ (b * l) = i / 2 ^ (b * l)) :
    digit b l j = digit b l i ∧ j / 2 ^ (b * (l + 1)) = i / 2 ^ (b * (l + 1)) := by
  refine ⟨Fin.ext ?_, ?_⟩
  · rw [digit_val, digit_val, hq]
  · rw [← div_pow_succ, ← div_pow_succ, hq]

section

variable (h : OnPath layers top i l p pa)

include h

lemma OnPath.le : l ≤ layers := by
  induction h with
  | top => exact le_rfl
  | down _ ih => omega

omit h in
lemma OnPath.layerOk
    (hok : LayerOk leafOk layers top) (h : OnPath layers top i l p pa) : LayerOk leafOk l p := by
  induction h with
  | top => exact hok
  | down _ ih => exact ih.kids _

lemma OnPath.slotAt_eq (hq : j / 2 ^ (b * l) = i / 2 ^ (b * l)) :
    slotAt layers top j = slotAt l p j := by
  induction h with
  | top => rfl
  | down _ ih =>
    obtain ⟨hd, hq⟩ := block_succ hq
    rw [ih hq, slotAt_node, hd]

lemma OnPath.congr
    (hq : i' / 2 ^ (b * l) = i / 2 ^ (b * l)) : OnPath layers top i' l p pa := by
  induction h with
  | top => exact .top
  | down _ ih =>
    obtain ⟨hd, hq⟩ := block_succ hq
    rw [← hd]
    exact .down (ih hq)

lemma OnPath.missAligned :
    MissAligned layers top i ↔ MissAligned l p i := by
  induction h with
  | top => rfl
  | down _ ih => exact ih

omit h in
lemma missAligned_of_dvd : ∀ {l : ℕ} (p : IdrSlot b α), 2 ^ (b * l) ∣ i → MissAligned l p i
  | 0, .null, h | _ + 1, .null, h => h
  | 0, .leaf _, _ | 0, .node _ _, _ | _ + 1, .leaf _, _ => trivial
  | l + 1, .node _ ary, h =>
    missAligned_of_dvd (ary (digit b l i))
      ((pow_dvd_pow 2 (Nat.mul_le_mul_left b (Nat.le_succ l))).trans h)

omit h in
lemma dvd_of_block_ne {m n : ℕ} (hmn : m ∣ n) (hpos : 0 < n) (hi : m ∣ i)
    (hne : (i + m) / n ≠ i / n) : n ∣ i + m := by
  obtain ⟨k, rfl⟩ := hmn
  obtain ⟨a, rfl⟩ := hi
  have hm : 0 < m := Nat.pos_of_mul_pos_right hpos
  rw [← Nat.mul_succ] at hne ⊢
  rw [Nat.mul_div_mul_left _ _ hm, Nat.mul_div_mul_left _ _ hm] at hne
  refine Nat.mul_dvd_mul_left m ?_
  by_contra hdvd
  exact hne (Nat.succ_div_of_not_dvd hdvd)

lemma OnPath.next_aligned (hi : 2 ^ (b * l) ∣ i)
    (hlt : i + 2 ^ (b * l) < 2 ^ (b * layers)) : MissAligned layers top (i + 2 ^ (b * l)) := by
  -- it is enough that the child on the old path is fine, should the new path lead there too
  have hup : ∀ {lv p pa}, OnPath layers top i lv p pa → l ≤ lv →
      ((i + 2 ^ (b * l)) / 2 ^ (b * lv) = i / 2 ^ (b * lv) → MissAligned lv p (i + 2 ^ (b * l))) →
      MissAligned layers top (i + 2 ^ (b * l)) := by
    intro lv p pa hp
    induction hp with
    | top =>
      intro _ hsame
      exact hsame (by rw [Nat.div_eq_of_lt hlt, Nat.div_eq_of_lt (by omega)])
    | @down lv info ary pa _ ih =>
      intro hle hsame
      refine ih (by omega) fun hq => ?_
      rw [MissAligned]
      by_cases hblock : (i + 2 ^ (b * l)) / 2 ^ (b * lv) = i / 2 ^ (b * lv)
      · rw [(block_succ hblock).1]
        exact hsame hblock
      · exact missAligned_of_dvd _ (dvd_of_block_ne (pow_dvd_pow 2 (Nat.mul_le_mul_left b hle))
          (by positivity) hi hblock)
  refine hup h le_rfl fun _ => ?_
  exact missAligned_of_dvd _ (Nat.dvd_add hi dvd_rfl)

end

end

lemma nextDescend_spec (hid : id.toNat < 2 ^ 31) :
    ∀ {l : ℕ} {p : IdrSlot b α} {pa : List (IdrSlot b α)}, LayerOk leafOk l p →
      OnPath layers top id.toNat l p pa → ∃ l' p' pa', nextDescend id l p pa = ⟨id, l', p', pa'⟩
        ∧ OnPath layers top id.toNat l' p' pa' ∧ (p' = .null ∨ l' = 0)
  | 0, p, pa, _, hp => by
    refine ⟨0, p, pa, ?_, hp, .inr rfl⟩
    cases p <;> rfl
  | l + 1, p, pa, hok, hp => by
    rcases hok.node_cases with rfl | ⟨info, ary, rfl⟩
    · exact ⟨l + 1, .null, pa, rfl, hp, .inl rfl⟩
    · rw [nextDescend, idIndex_eq l hid]
      exact nextDescend_spec hid (hok.kids _) hp.down

lemma nextPop_id (id : CInt) : ∀ (pa : List (IdrSlot b α)) (l : ℕ) (p : IdrSlot b α),
    (nextPop id l p pa).id = id
  | [], l, p => by
    rw [nextPop]
    split <;> rfl
  | q :: pa, l, p => by
    rw [nextPop]
    split
    · exact nextPop_id id pa _ _
    · rfl

lemma nextPop_spec {i : ℕ} (hid : id.toNat < 2 ^ (b * layers)) :
    ∀ {pa : List (IdrSlot b α)} {l : ℕ} {p : IdrSlot b α}, OnPath layers top i l p pa →
      ∃ l' p' pa', nextPop id l p pa = ⟨id, l', p', pa'⟩ ∧ OnPath layers top i l' p' pa'
        ∧ id.toNat < 2 ^ (b * l')
  | [], l, p, hp => by
    have hl : id.toNat < 2 ^ (b * l) := by
      cases hp with
      | top => exact hid
    refine ⟨l, p, [], ?_, hp, hl⟩
    exact if_neg (not_lt.2 (Nat.size_le.2 hl))
  | q :: pa, l, p, hp => by
    rw [nextPop]
    by_cases hlt : b * l < fls id
    · rw [if_pos hlt]
      cases hp with
      | down hp => exact nextPop_spec hid hp
    · rw [if_neg hlt]
      exact ⟨l, p, q :: pa, rfl, hp, Nat.size_le.1 (not_lt.1 hlt)⟩

structure NextInv (layers : ℕ) (top : IdrSlot b α) (start : ℕ) (s : NextWalk b α) : Prop where
  lt : s.id.toNat < 2 ^ 31
  le : start ≤ s.id.toNat
  passed : ∀ j, start ≤ j → j < s.id.toNat → slotAt layers top j = .null
  path : s.id.toNat < 2 ^ (b * layers) → OnPath layers top s.id.toNat s.l s.p s.pa
  aligned : s.id.toNat < 2 ^ (b * layers) → MissAligned layers top s.id.toNat

def NextFound (layers : ℕ) (top : IdrSlot b α) (start : ℕ) : Option (IdrSlot b α × CInt) → Prop
  | none => ∀ j, start ≤ j → j < 2 ^ (b * layers) → slotAt layers top j = .null
  | some (p, id) => p.isNull = false ∧ start ≤ id.toNat ∧ id.toNat < 2 ^ (b * layers)
      ∧ slotAt layers top id.toNat = p ∧ ∀ j, start ≤ j → j < id.toNat → slotAt layers top j = .null

lemma slt_max (hid : id.toNat < 2 ^ 31) (hlay : b * layers ≤ 30) :
    id.slt (1#32 <<< (b * layers)) = decide (id.toNat < 2 ^ (b * layers)) := by
  have hmax := one_shiftLeft_toNat hlay
  have hlt : 2 ^ (b * layers) ≤ 2 ^ 30 := Nat.pow_le_pow_right (by omega) hlay
  rw [BitVec.slt_eq_decide, BitVec.toInt_eq_toNat_of_msb (msb_eq_false hid),
    BitVec.toInt_eq_toNat_of_msb (msb_eq_false (by rw [hmax]; omega)), hmax, decide_eq_decide]
  exact_mod_cast Iff.rfl

lemma nextPass_spec {start : ℕ} (hok : LayerOk leafOk layers top) (hlay : b * layers ≤ 30)
    {s : NextWalk b α} (h : NextInv layers top start s) :
    (nextPass (1#32 <<< (b * layers)) s).Next (NextInv layers top start)
      (NextFound layers top start) (fun s => 2 ^ (b * layers) - s.id.toNat)
      (2 ^ (b * layers) - s.id.toNat) := by
  rw [nextPass, slt_max h.lt hlay]
  by_cases hid : s.id.toNat < 2 ^ (b * layers)
  · rw [if_pos (by simpa using hid)]
    have hpath := h.path hid
    obtain ⟨l, p, pa, hd, hp, hend⟩ := nextDescend_spec h.lt (hpath.layerOk hok) hpath
    simp only [hd]
    cases hnull : p.isNull with
    | false =>
      rw [if_neg (by simp)]
      refine ⟨hnull, h.le, hid, ?_, h.passed⟩
      rcases hend with rfl | rfl
      · cases hnull
      · rw [hp.slotAt_eq rfl, slotAt_zero]
    | true =>
      rw [if_pos rfl]
      obtain rfl := eq_null_of_isNull hnull
      have hl : b * l ≤ 30 := (Nat.mul_le_mul_left b hp.le).trans hlay
      have hdvd : 2 ^ (b * l) ∣ s.id.toNat := by
        have := hp.missAligned.1 (h.aligned hid)
        cases l <;> exact this
      have hpow : 2 ^ (b * l) ≤ 2 ^ 30 := Nat.pow_le_pow_right (by norm_num) hl
      have hmax : 2 ^ (b * layers) ≤ 2 ^ 30 := Nat.pow_le_pow_right (by norm_num) hlay
      have hadd : (s.id + 1#32 <<< (b * l)).toNat = s.id.toNat + 2 ^ (b * l) := by
        rw [BitVec.toNat_add, one_shiftLeft_toNat hl, Nat.mod_eq_of_lt (by omega)]
      have hpos : 0 < 2 ^ (b * l) := by positivity
      have hpassed : ∀ j, start ≤ j → j < s.id.toNat + 2 ^ (b * l) →
          slotAt layers top j = .null := by
        intro j hj hjlt
        rcases lt_or_ge j s.id.toNat with hlt | hge
        · exact h.passed j hj hlt
        obtain ⟨k, hk⟩ := hdvd
        have hq : j / 2 ^ (b * l) = s.id.toNat / 2 ^ (b * l) := by
          rw [hk, Nat.mul_div_cancel_left _ hpos]
          refine Nat.div_eq_of_lt_le ?_ ?_
          · rw [mul_comm, ← hk]
            exact hge
          · rw [Nat.succ_mul, mul_comm, ← hk]
            exact hjlt
        rw [hp.slotAt_eq hq, slotAt_null]
      generalize s.id + 1#32 <<< (b * l) = id at hadd ⊢
      refine ⟨⟨?_, ?_, fun j hj hjlt => ?_, fun hnext => ?_, fun hnext => ?_⟩, ?_⟩
      · rw [nextPop_id, hadd]
        omega
      · rw [nextPop_id, hadd]
        exact h.le.trans (Nat.le_add_right _ _)
      · rw [nextPop_id, hadd] at hjlt
        exact hpassed j hj hjlt
      · rw [nextPop_id] at hnext
        obtain ⟨l', p', pa', hpop, hp', hlt⟩ := nextPop_spec hnext hp
        rw [hpop]
        refine hp'.congr ?_
        rw [Nat.div_eq_of_lt hlt, Nat.div_eq_of_lt (by omega)]
      · rw [nextPop_id, hadd] at hnext ⊢
        exact hp.next_aligned hdvd hnext
      · simp only [nextPop_id, hadd]
        omega
  · rw [if_neg (by simpa using hid)]
    exact fun j hj hjlt => h.passed j hj (by omega)

lemma idrGetNext_spec {idp : Idr b α} (h : IdrOk leafOk idp) {start : CInt}
    (hs : start.toNat < 2 ^ 31)
    (ha : start.toNat < 2 ^ (b * idp.layers) → MissAligned idp.layers idp.top start.toNat) :
    ∃ p id, idrGetNext idp start = some (p, id)
      ∧ (p = .null → id = start ∧ ∀ j, start.toNat ≤ j → rootPtr idp.layers idp.top j = .null)
      ∧ (p ≠ .null → start.toNat ≤ id.toNat ∧ rootPtr idp.layers idp.top id.toNat = p
        ∧ ∀ j, start.toNat ≤ j → j < id.toNat → rootPtr idp.layers idp.top j = .null) := by
  have hnull : ∀ {j}, slotAt idp.layers idp.top j = .null →
      rootPtr idp.layers idp.top j = .null := by
    intro j hj
    rw [rootPtr, hj, ite_self]
  rw [idrGetNext]
  cases htop : idp.top.isNull with
  | true =>
    have hempty := eq_null_of_isNull htop
    refine ⟨.null, start, rfl, fun _ => ⟨rfl, fun j _ => hnull ?_⟩, fun hne => (hne rfl).elim⟩
    rw [hempty, slotAt_null]
  | false =>
    have hinv : NextInv idp.layers idp.top start.toNat ⟨start, idp.layers, idp.top, []⟩ :=
      ⟨hs, le_rfl, fun j h1 h2 => absurd h1 (not_le.2 h2), fun _ => .top, ha⟩
    obtain ⟨r, hrun, hfound⟩ := Pass.run_of_next
      (fun s hs => nextPass_spec h.ok h.layers_lt hs) (2 ^ (b * idp.layers) + 1) hinv
      (Nat.lt_succ_of_le (Nat.sub_le _ _))
    rw [if_neg (by simp), one_shiftLeft_toNat h.layers_lt, hrun]
    cases r with
    | none =>
      refine ⟨.null, start, rfl, fun _ => ⟨rfl, fun j hj => ?_⟩, fun hne => (hne rfl).elim⟩
      by_cases hlt : j < 2 ^ (b * idp.layers)
      · exact hnull (hfound j hj hlt)
      · rw [rootPtr, if_neg hlt]
    | some r =>
      obtain ⟨hp, hle, hlt, hslot, hpassed⟩ := hfound
      refine ⟨r.1, r.2, rfl, fun he => ?_,
        fun _ => ⟨hle, ?_, fun j h1 h2 => hnull (hpassed j h1 h2)⟩⟩
      · rw [he] at hp
        cases hp
      · rw [rootPtr, if_pos hlt, hslot]

lemma ptrSlot_eq_null_iff {x : Option α} : (ptrSlot x : IdrSlot b α) = .null ↔ x = none := by
  cases x <;> simp [ptrSlot]

end LinuxKernel.Lib
