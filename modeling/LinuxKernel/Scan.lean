import LinuxKernel.Loop

/-!
# Scans in ascending order

A scan of the indices below `W` goes in rounds. A round from `lo` on reads all items up to some
index above `lo`, and reports where to go on, modulo `W`: 0 is the end. However the rounds cut the
indices, the scan reads the first items there are.
-/

namespace LinuxKernel

open List

variable {β : Type*} {it it' : ℕ → Option β} {lo mid hi W B B' lim : ℕ}

def itemsIn (it : ℕ → Option β) (lo hi : ℕ) : List β := (List.range' lo (hi - lo)).filterMap it

lemma itemsIn_append (h1 : lo ≤ mid) (h2 : mid ≤ hi) :
    itemsIn it lo hi = itemsIn it lo mid ++ itemsIn it mid hi := by
  unfold itemsIn
  rw [← filterMap_append]
  congr 1
  have h := range'_append_1 (s := lo) (m := mid - lo) (n := hi - mid)
  rw [show lo + (mid - lo) = mid by omega, show mid - lo + (hi - mid) = hi - lo by omega] at h
  exact h.symm

lemma itemsIn_congr (h : ∀ j, lo ≤ j → j < hi → it j = it' j) :
    itemsIn it lo hi = itemsIn it' lo hi := by
  refine filterMap_congr fun j hj => ?_
  rw [mem_range'_1] at hj
  exact h j hj.1 (by omega)

lemma itemsIn_none (h : ∀ j, lo ≤ j → j < hi → it j = none) : itemsIn it lo hi = [] := by
  refine filterMap_eq_nil_iff.2 fun j hj => ?_
  rw [mem_range'_1] at hj
  exact h j hj.1 (by omega)

lemma itemsIn_succ (it : ℕ → Option β) (lo : ℕ) : itemsIn it lo (lo + 1) = (it lo).toList := by
  rw [itemsIn, Nat.add_sub_cancel_left, range'_one, filterMap_cons, filterMap_nil]
  cases it lo <;> rfl

lemma itemsIn_map {γ : Type*} (f : β → γ) (it : ℕ → Option β) (lo hi : ℕ) :
    itemsIn (fun j => (it j).map f) lo hi = (itemsIn it lo hi).map f :=
  map_filterMap.symm

lemma exists_of_mem_itemsIn {x : β} (h : x ∈ itemsIn it lo hi) : ∃ j, it j = some x := by
  obtain ⟨j, -, hj⟩ := mem_filterMap.1 h
  exact ⟨j, hj⟩

/-- What a round from `lo` on read, at most `lim` items, and where it says to go on: it stops at
`B` at the latest. -/
def Scanned (W B : ℕ) (it : ℕ → Option β) (lo lim : ℕ) (r : List β × ℕ) : Prop :=
  ∃ hi, lo < hi ∧ hi ≤ B ∧ hi ≤ W ∧ r.2 = hi % W ∧ r.1 = itemsIn it lo hi ∧ r.1.length ≤ lim

variable {r : List β × ℕ}

lemma Scanned.congr (h : Scanned W B it lo lim r) (hit : ∀ j, lo ≤ j → j < B → it j = it' j) :
    Scanned W B it' lo lim r := by
  obtain ⟨hi, h1, h2, h3, h4, h5, h6⟩ := h
  exact ⟨hi, h1, h2, h3, h4, h5.trans (itemsIn_congr fun j hj hlt => hit j hj (by omega)), h6⟩

lemma Scanned.mono (h : Scanned W B it lo lim r) (hB : B ≤ B') : Scanned W B' it lo lim r := by
  obtain ⟨hi, h1, h2, h⟩ := h
  exact ⟨hi, h1, h2.trans hB, h⟩

lemma Scanned.skip (h : Scanned W B it mid lim r) (hle : lo ≤ mid)
    (hnone : ∀ j, lo ≤ j → j < mid → it j = none) : Scanned W B it lo lim r := by
  obtain ⟨hi, h1, h2, h3, h4, h5, h6⟩ := h
  refine ⟨hi, by omega, h2, h3, h4, ?_, h6⟩
  rw [itemsIn_append hle h1.le, itemsIn_none hnone, h5, nil_append]

section

/-- One round of a scan for `max` items below `stop`, by `round lo lim`. -/
def scanPass (round : ℕ → ℕ → List β × ℕ) (stop max : ℕ) (s : List β × ℕ) :
    Pass (List β × ℕ) (List β) :=
  if s.1.length < max then
    if stop ≤ s.2 then .leave s.1
    else
      let r := round s.2 (max - s.1.length)
      if r.2 = 0 then .leave (s.1 ++ r.1) else .again (s.1 ++ r.1, r.2)
  else .leave s.1

variable {round : ℕ → ℕ → List β × ℕ} {stop max first : ℕ}

lemma take_itemsIn_of_length (h1 : lo ≤ mid) (h2 : mid ≤ hi)
    (hlen : (itemsIn it lo mid).length = max) :
    (itemsIn it lo hi).take max = itemsIn it lo mid := by
  rw [itemsIn_append h1 h2, ← hlen, take_left]

lemma take_itemsIn_of_none (h1 : lo ≤ mid) (h2 : mid ≤ hi)
    (hlen : (itemsIn it lo mid).length ≤ max)
    (hnone : ∀ j, mid ≤ j → j < hi → it j = none) :
    (itemsIn it lo hi).take max = itemsIn it lo mid := by
  rw [itemsIn_append h1 h2, itemsIn_none hnone, append_nil, take_of_length_le hlen]

section

variable (hround : ∀ lo lim, lo < W → lo < stop → 0 < lim → Scanned W W it lo lim (round lo lim))

include hround

lemma scanPass_next
    (hstop : ∀ j, stop ≤ j → j < W → it j = none) {s : List β × ℕ}
    (hs : first ≤ s.2 ∧ s.2 < W ∧ s.1 = itemsIn it first s.2 ∧ s.1.length ≤ max) :
    (scanPass round stop max s).Next
      (fun s => first ≤ s.2 ∧ s.2 < W ∧ s.1 = itemsIn it first s.2 ∧ s.1.length ≤ max)
      (fun r => r = (itemsIn it first W).take max) (fun s => W - s.2) (W - s.2) := by
  obtain ⟨hle, hlt, hitems, hlen⟩ := hs
  rw [scanPass]
  by_cases hmax : s.1.length < max
  · rw [if_pos hmax]
    by_cases hend : stop ≤ s.2
    · rw [if_pos hend]
      refine hitems.trans (take_itemsIn_of_none hle hlt.le (by rw [← hitems]; exact hlen) ?_).symm
      exact fun j hj hjW => hstop j (hend.trans hj) hjW
    rw [if_neg hend]
    obtain ⟨hi, h1, -, h3, h4, h5, h6⟩ := hround s.2 (max - s.1.length) hlt (by omega) (by omega)
    dsimp only
    have happ : s.1 ++ (round s.2 (max - s.1.length)).1 = itemsIn it first hi := by
      rw [itemsIn_append hle h1.le, ← hitems, h5]
    have hlen' : (itemsIn it first hi).length ≤ max := by
      rw [← happ, length_append]
      omega
    by_cases h0 : (round s.2 (max - s.1.length)).2 = 0
    · rw [if_pos h0]
      have hW : hi = W := by
        rw [h4] at h0
        exact (Nat.le_of_dvd (by omega) (Nat.dvd_of_mod_eq_zero h0)).antisymm' h3
      rw [happ]
      subst hW
      exact (take_of_length_le hlen').symm
    · rw [if_neg h0]
      have hne : hi ≠ W := by
        rintro rfl
        rw [h4, Nat.mod_self] at h0
        exact h0 rfl
      have h4' : (round s.2 (max - s.1.length)).2 = hi := by rw [h4, Nat.mod_eq_of_lt (by omega)]
      rw [happ, h4']
      exact ⟨⟨by omega, by omega, rfl, hlen'⟩, by dsimp only; omega⟩
  · rw [if_neg hmax]
    exact hitems.trans (take_itemsIn_of_length hle hlt.le (by rw [← hitems]; omega)).symm

lemma scanPass_run
    (hstop : ∀ j, stop ≤ j → j < W → it j = none) (hfirst : first < W) :
    Pass.run (scanPass round stop max) (W + 1) ([], first)
    = some ((itemsIn it first W).take max) := by
  obtain ⟨r, hr, rfl⟩ := Pass.run_of_next (fun s hs => scanPass_next hround hstop hs) (W + 1)
    (s := ([], first)) ⟨le_rfl, hfirst, by simp [itemsIn], Nat.zero_le _⟩
    (Nat.lt_succ_of_le (Nat.sub_le _ _))
  exact hr

end

end

end LinuxKernel
