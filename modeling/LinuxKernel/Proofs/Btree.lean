import LinuxKernel.Btree

/-!
# B+trees stay ordered

The keys of a node descend, and a child's keys lie between its own key and the key of the pair
before it (`Pairs`). No node below the root is empty. `btree_insert` and `btree_remove` keep this,
whatever key they are given.
-/

namespace LinuxKernel.Btree

open List

variable {P : Type} {C : ℕ → ℕ → P → Prop} {geo : Geo} {lo hi key : ℕ} {val : P}
  {A B : List (ℕ × P)} {head head' : Head}

section

variable {lo lo' hi hi' k key : ℕ} {es A B : List (ℕ × P)} {c : P}

/-- The keys descend from below `hi` to `lo`, and each child lies between its key and the key before
it. -/
def Pairs (C : ℕ → ℕ → P → Prop) (lo : ℕ) : ℕ → List (ℕ × P) → Prop
  | _, [] => True
  | hi, (k, c) :: es => lo ≤ k ∧ k < hi ∧ C k hi c ∧ Pairs C lo k es

/-- The last key, or the bound above where there is none. -/
def lowest (hi : ℕ) : List (ℕ × P) → ℕ
  | [] => hi
  | (k, _) :: es => lowest k es

def Raises (C : ℕ → ℕ → P → Prop) : Prop := ∀ k hi hi' c, hi ≤ hi' → C k hi c → C k hi' c

lemma Pairs.raise (hC : Raises C) (h : Pairs C lo hi es) (hle : hi ≤ hi') :
    Pairs C lo hi' es := by
  cases es with
  | nil => trivial
  | cons e es =>
    obtain ⟨h₁, h₂, h₃, h₄⟩ := h
    exact ⟨h₁, h₂.trans_le hle, hC _ _ _ _ hle h₃, h₄⟩

lemma Pairs.lower (hle : lo' ≤ lo) : ∀ {es : List (ℕ × P)} {hi : ℕ}, Pairs C lo hi es →
    Pairs C lo' hi es
  | [], _, _ => trivial
  | (_, _) :: _, _, ⟨h₁, h₂, h₃, h₄⟩ => ⟨hle.trans h₁, h₂, h₃, h₄.lower hle⟩

lemma pairs_append : ∀ {A B : List (ℕ × P)} {hi : ℕ},
    Pairs C lo hi (A ++ B) ↔ Pairs C lo hi A ∧ Pairs C lo (lowest hi A) B
  | [], B, hi => by simp [Pairs, lowest]
  | (k, c) :: A, B, hi => by
    rw [cons_append, Pairs, Pairs, lowest, pairs_append]
    tauto

section

variable (h : Pairs C lo hi es)

include h

lemma lowest_le : lowest hi es ≤ hi := by
  induction es generalizing hi with
  | nil => exact le_refl hi
  | cons e es ih =>
    obtain ⟨-, h₂, -, h₄⟩ := h
    exact (ih h₄).trans h₂.le

lemma le_lowest (hle : lo ≤ hi) : lo ≤ lowest hi es := by
  induction es generalizing hi with
  | nil => exact hle
  | cons e es ih =>
    obtain ⟨h₁, -, -, h₄⟩ := h
    exact ih h₄ h₁

lemma lowest_lt (hne : es ≠ []) :
    lo ≤ lowest hi es ∧ lowest hi es < hi := by
  cases es with
  | nil => exact absurd rfl hne
  | cons e es =>
    obtain ⟨k, c⟩ := e
    obtain ⟨h₁, h₂, -, h₄⟩ := h
    rw [lowest]
    exact ⟨le_lowest h₄ h₁, (lowest_le h₄).trans_lt h₂⟩

lemma Pairs.self_lowest : Pairs C (lowest hi es) hi es := by
  induction es generalizing hi with
  | nil => trivial
  | cons e es ih =>
    obtain ⟨-, h₂, h₃, h₄⟩ := h
    exact ⟨lowest_le h₄, h₂, h₃, ih h₄⟩

lemma Pairs.lowest_le_of_mem : ∀ e ∈ es, lowest hi es ≤ e.1 := by
  induction es generalizing hi with
  | nil => simp
  | cons e es ih =>
    obtain ⟨-, -, -, h₄⟩ := h
    intro e' he
    rcases mem_cons.mp he with rfl | he
    · exact lowest_le h₄
    · exact ih h₄ e' he

end

lemma lowest_of_getLast : ∀ {es : List (ℕ × P)} {hi k : ℕ} {c : P},
    es.getLast? = some (k, c) → lowest hi es = k
  | [(k, c)], hi, k', c', h => by
    simp only [getLast?_singleton, Option.some.injEq, Prod.mk.injEq] at h
    exact h.1
  | (k, c) :: e :: es, hi, k', c', h => by
    rw [getLast?_cons_cons] at h
    rw [lowest]
    exact lowest_of_getLast h

lemma lt_lowest (hhi : key < hi) (h : ∀ e ∈ es, key < e.1) : key < lowest hi es := by
  induction es generalizing hi with
  | nil => exact hhi
  | cons e es ih => exact ih (h e (by simp)) fun e' he => h e' (mem_cons_of_mem _ he)

lemma Pairs.lt_of_mem (h : Pairs C lo hi es) : ∀ e ∈ es, e.1 < hi := by
  induction es generalizing hi with
  | nil => simp
  | cons e es ih =>
    obtain ⟨-, h₂, -, h₄⟩ := h
    intro e' he
    rcases mem_cons.mp he with rfl | he
    · exact h₂
    · exact (ih h₄ e' he).trans h₂

lemma Pairs.bounds_of_mem (h : Pairs C lo hi es) :
    ∀ e ∈ es, ∃ u, u ≤ hi ∧ lo ≤ e.1 ∧ e.1 < u ∧ C e.1 u e.2 := by
  induction es generalizing hi with
  | nil => simp
  | cons e es ih =>
    obtain ⟨h₁, h₂, h₃, h₄⟩ := h
    intro e' he
    rcases mem_cons.mp he with rfl | he
    · exact ⟨hi, le_refl hi, h₁, h₂, h₃⟩
    · obtain ⟨u, hu, hrest⟩ := ih h₄ e' he
      exact ⟨u, hu.trans h₂.le, hrest⟩

lemma Pairs.descending (h : Pairs C lo hi es) : es.Pairwise fun a b => b.1 < a.1 := by
  induction es generalizing hi with
  | nil => exact List.Pairwise.nil
  | cons e es ih =>
    obtain ⟨-, -, -, h₄⟩ := h
    exact pairwise_cons.mpr ⟨h₄.lt_of_mem, ih h₄⟩

lemma le_of_getLast (h : es.Pairwise fun a b => b.1 < a.1)
    (hlast : es.getLast? = some (k, c)) : ∀ e ∈ es, k ≤ e.1 := by
  obtain ⟨init, rfl⟩ := getLast?_eq_some_iff.mp hlast
  intro e he
  rcases mem_append.mp he with he | he
  · exact ((pairwise_append.mp h).2.2 e he (k, c) (by simp)).le
  · rw [mem_singleton.mp he]

lemma Pairs.append {mid : ℕ} (hC : Raises C) (hle : lo ≤ mid) (hmid : mid ≤ hi)
    (hA : Pairs C mid hi A) (hB : Pairs C lo mid B) : Pairs C lo hi (A ++ B) := by
  rw [pairs_append]
  exact ⟨hA.lower hle, hB.raise hC (le_lowest hA hmid)⟩

lemma Pairs.cut (h : Pairs C lo hi (A ++ B)) :
    Pairs C (lowest hi A) hi A ∧ Pairs C lo (lowest hi A) B := by
  rw [pairs_append] at h
  exact ⟨h.1.self_lowest, h.2⟩

lemma Pairs.sublist (hC : Raises C) {es' : List (ℕ × P)} (hsub : es'.Sublist es)
    (h : Pairs C lo hi es) : Pairs C lo hi es' := by
  induction hsub generalizing hi with
  | slnil => trivial
  | cons e _ ih =>
    obtain ⟨-, h₂, -, h₄⟩ := h
    exact (ih h₄).raise hC h₂.le
  | cons_cons e _ ih =>
    obtain ⟨h₁, h₂, h₃, h₄⟩ := h
    exact ⟨h₁, h₂, h₃, ih h₄⟩

/-- The step of `find_level` splits the pairs at the child for a key; only the key of the last pair
may be lowered. -/
lemma findSlot_spec : ∀ {es A B : List (ℕ × P)} {k hi : ℕ} {c : P},
    Pairs C lo hi es → lo ≤ key → key < hi → findSlot key es = some (A, (k, c), B) →
      ∃ k₀, es = A ++ (k₀, c) :: B ∧ lo ≤ k ∧ k ≤ key ∧ key < lowest hi A ∧ k ≤ k₀ ∧
        (k = k₀ ∨ B = [])
  | [(k₀, c)], A, B, k, hi, c', h, _, hhi, hf => by
    simp only [findSlot, Option.some.injEq, Prod.mk.injEq] at hf
    obtain ⟨rfl, ⟨rfl, rfl⟩, rfl⟩ := hf
    obtain ⟨h₁, -⟩ := h
    refine ⟨k₀, rfl, ?_, ?_, hhi, ?_, .inr rfl⟩ <;> split_ifs <;> omega
  | (k₀, c) :: e :: es, A, B, k, hi, c', h, hlo, hhi, hf => by
    obtain ⟨h₁, -, -, h₄⟩ := h
    simp only [findSlot] at hf
    split_ifs at hf with hle
    · simp only [Option.some.injEq, Prod.mk.injEq] at hf
      obtain ⟨rfl, ⟨rfl, rfl⟩, rfl⟩ := hf
      exact ⟨k₀, rfl, h₁, hle, hhi, le_refl _, .inl rfl⟩
    rw [Option.map_eq_some_iff] at hf
    obtain ⟨⟨A', ⟨k', c''⟩, B'⟩, hf, heq⟩ := hf
    simp only [Prod.mk.injEq] at heq
    obtain ⟨rfl, ⟨rfl, rfl⟩, rfl⟩ := heq
    obtain ⟨k₁, hes, hrest⟩ := findSlot_spec h₄ hlo (not_le.mp hle) hf
    exact ⟨k₁, by rw [hes]; rfl, hrest⟩

lemma findSlot_isSome : ∀ {es : List (ℕ × P)}, es ≠ [] → (findSlot key es).isSome
  | [(k, c)], _ => rfl
  | (k, c) :: e :: es, _ => by
    simp only [findSlot]
    split_ifs
    · rfl
    · rw [Option.isSome_map]
      exact findSlot_isSome (by simp)

lemma pairs_around : Pairs C lo hi (A ++ (k, c) :: B) ↔
    Pairs C lo hi A ∧ lo ≤ k ∧ k < lowest hi A ∧ C k (lowest hi A) c ∧ Pairs C lo k B := by
  rw [pairs_append, Pairs]

lemma Pairs.around_findSlot {k₀ : ℕ} (h : Pairs C lo hi (A ++ (k₀, c) :: B))
    (hkey : k ≤ key) (hA : key < lowest hi A) (hB : k = k₀ ∨ B = []) :
    Pairs C lo hi A ∧ k < lowest hi A ∧ C k₀ (lowest hi A) c ∧ Pairs C lo k B := by
  obtain ⟨h₁, h₂, h₃, h₄, h₅⟩ := pairs_around.mp h
  refine ⟨h₁, by omega, h₄, ?_⟩
  rcases hB with rfl | rfl
  · exact h₅
  · trivial

end

lemma insertPair_above : ∀ {A : List (ℕ × P)},
    (∀ e ∈ A, key < e.1) → insertPair key val (A ++ B) = A ++ insertPair key val B
  | [], _ => rfl
  | (k, c) :: A, h => by
    have hk : ¬k ≤ key := not_le.mpr (h (k, c) (by simp))
    rw [cons_append, insertPair, if_neg hk, insertPair_above fun e he => h e (mem_cons_of_mem _ he)]
    rfl

lemma insertPair_within : ∀ {A : List (ℕ × P)},
    (∃ e ∈ A, e.1 ≤ key) → insertPair key val (A ++ B) = insertPair key val A ++ B
  | [], h => by simp at h
  | (k, c) :: A, h => by
    rw [cons_append, insertPair, insertPair]
    split_ifs with hk
    · rfl
    rw [insertPair_within, cons_append]
    obtain ⟨e, he, hle⟩ := h
    rcases mem_cons.mp he with rfl | he
    · exact absurd hle hk
    · exact ⟨e, he, hle⟩

lemma insertPair_eq (h : Pairs C lo hi (A ++ (key, val) :: B)) :
    insertPair key val (A ++ B) = A ++ (key, val) :: B := by
  obtain ⟨hA, -, hk, -, hB⟩ := pairs_around.mp h
  rw [insertPair_above fun e he => hk.trans_le (hA.lowest_le_of_mem e he)]
  cases B with
  | nil => rfl
  | cons e B =>
    obtain ⟨-, h₂, -⟩ := hB
    rw [insertPair, if_pos h₂.le]

lemma lowest_insertPair : ∀ {es : List (ℕ × P)} {hi : ℕ},
    (∃ e ∈ es, e.1 ≤ key) → lowest hi (insertPair key val es) = lowest hi es
  | [], hi, h => by simp at h
  | (k, c) :: es, hi, h => by
    rw [insertPair]
    split_ifs with hk
    · rfl
    rw [lowest, lowest, lowest_insertPair]
    obtain ⟨e, he, hle⟩ := h
    rcases mem_cons.mp he with rfl | he
    · exact absurd hle hk
    · exact ⟨e, he, hle⟩

lemma length_insertPair : ∀ es : List (ℕ × P), (insertPair key val es).length = es.length + 1
  | [] => rfl
  | (k, c) :: es => by
    rw [insertPair]
    split_ifs
    · rfl
    · rw [length_cons, length_insertPair, length_cons]

/-- What `btree_insert_level` makes of a node, where the pairs are in order with the new one among
them: a node with it, or two halves with their bounds. -/
lemma putPair_spec (hN : 4 ≤ geo.noPairs)
    {node : List (ℕ × P)} {r : Option (ℕ × List (ℕ × P))}
    (h : Pairs C lo hi (A ++ (key, val) :: B))
    (hput : putPair geo key val (A ++ B) = some (node, r)) :
    match r with
    | none => node = A ++ (key, val) :: B
    | some (mid, new) => A ++ (key, val) :: B = new ++ node ∧ lowest hi new = mid ∧
        geo.noPairs / 2 ≤ new.length ∧ geo.noPairs / 2 ≤ node.length := by
  unfold putPair at hput
  split_ifs at hput with hdup hfull
  · have hins := insertPair_eq h
    have hsplit := take_append_drop ((A ++ B).length / 2) (A ++ B)
    have hnew : ((A ++ B).take ((A ++ B).length / 2)).length = geo.noPairs / 2 := by
      rw [length_take, hfull]
      omega
    have hnode : ((A ++ B).drop ((A ++ B).length / 2)).length = geo.noPairs - geo.noPairs / 2 := by
      rw [length_drop, hfull]
    generalize (A ++ B).take ((A ++ B).length / 2) = new₀ at hput hsplit hnew
    generalize (A ++ B).drop ((A ++ B).length / 2) = node₀ at hput hsplit hnode
    simp only at hput
    split at hput
    · cases hput
    next mid c hlast =>
    have hmid : ∀ hi, lowest hi new₀ = mid := fun _ => lowest_of_getLast hlast
    have hmem : (mid, c) ∈ new₀ := List.mem_of_getLast? hlast
    rw [← hsplit] at hins
    split_ifs at hput with hle
    · cases hput
      have hex : ∃ e ∈ new₀, e.1 ≤ key := ⟨(mid, c), hmem, hle⟩
      refine ⟨?_, ?_, ?_, by omega⟩
      · rw [← hins, insertPair_within hex]
      · rw [lowest_insertPair hex, hmid]
      · rw [length_insertPair]
        omega
    · cases hput
      have habove : ∀ e ∈ new₀, key < e.1 := by
        have hdesc : (A ++ B).Pairwise fun a b => b.1 < a.1 :=
          h.descending.sublist ((Sublist.refl A).append (sublist_cons_self _ B))
        rw [← hsplit] at hdesc
        have hold := le_of_getLast (pairwise_append.mp hdesc).1 hlast
        intro e he
        exact (not_le.mp hle).trans_le (hold e he)
      refine ⟨?_, hmid _, by omega, ?_⟩
      · rw [← hins, insertPair_above habove]
      · rw [length_insertPair]
        omega
  · cases hput
    exact insertPair_eq h

/-- A child between two bounds: a value, or a node with pairs in order. -/
def Kid : (h : ℕ) → ℕ → ℕ → Slot h → Prop
  | 0, _, _, _ => True
  | h + 1, lo, hi, es => es ≠ [] ∧ Pairs (Kid h) lo hi es

lemma Kid.raises : ∀ h, Raises (Kid h)
  | 0 => fun _ _ _ _ _ _ => trivial
  | h + 1 => fun _ _ _ _ hle hk => ⟨hk.1, hk.2.raise (Kid.raises h) hle⟩

variable {h val : ℕ}

lemma Kid.lower {lo' : ℕ} (hle : lo' ≤ lo) : ∀ {h : ℕ} {c : Slot h},
    Kid h lo hi c → Kid h lo' hi c
  | 0, _, _ => trivial
  | _ + 1, _, hk => ⟨hk.1, hk.2.lower hle⟩

lemma Pairs.findSlot {k : ℕ} {es A B : Node (h + 1)} {c : Slot (h + 1)}
    (hp : Pairs (Kid (h + 1)) lo hi es) (hlo : lo ≤ key) (hhi : key < hi)
    (hf : findSlot key es = some (A, (k, c), B)) :
    es.length = (A ++ (k, c) :: B).length ∧ Pairs (Kid (h + 1)) lo hi A ∧ lo ≤ k ∧ k ≤ key ∧
      key < lowest hi A ∧ Kid (h + 1) k (lowest hi A) c ∧ Pairs (Kid (h + 1)) lo k B := by
  obtain ⟨k₀, rfl, h₁, h₂, h₃, h₄, h₅⟩ := findSlot_spec hp hlo hhi hf
  obtain ⟨hA, -, hc, hB⟩ := hp.around_findSlot h₂ h₃ h₅
  exact ⟨by simp, hA, h₁, h₂, h₃, Kid.lower h₄ hc, hB⟩

/-- What an insertion leaves of a node: the node, or the node and a new one above it. -/
def Put (h lo hi : ℕ) : Node h × Option (ℕ × Node h) → Prop
  | (node, none) => Kid (h + 1) lo hi node
  | (node, some (mid, new)) => Kid (h + 1) lo mid node ∧ Kid (h + 1) mid hi new

lemma putPair_put (hN : 4 ≤ geo.noPairs) {val : Slot h} {A B : Node h}
    {r : Node h × Option (ℕ × Node h)} (hp : Pairs (Kid h) lo hi (A ++ (key, val) :: B))
    (hput : putPair geo key val (A ++ B) = some r) : Put h lo hi r := by
  obtain ⟨node, _ | ⟨mid, new⟩⟩ := r
  · have hnode := putPair_spec hN hp hput
    simp only at hnode
    subst hnode
    exact ⟨by simp, hp⟩
  obtain ⟨hcut, hmid, hnew, hnode⟩ := putPair_spec hN hp hput
  rw [hcut] at hp
  obtain ⟨hpnew, hpnode⟩ := hp.cut
  rw [hmid] at hpnew hpnode
  refine ⟨⟨?_, hpnode⟩, ?_, hpnew⟩
  · rintro rfl
    rw [length_nil] at hnode
    omega
  · rintro rfl
    rw [length_nil] at hnew
    omega

lemma exists_place {es : Node 0} (hp : Pairs (Kid 0) lo hi es)
    (hlo : lo ≤ key) (hhi : key < hi) (hnew : (es.find? (·.1 ≤ key)).any (·.1 = key) = false) :
    ∃ A B, es = A ++ B ∧ Pairs (Kid 0) lo hi (A ++ (key, val) :: B) := by
  cases hfind : es.find? (·.1 ≤ key) with
  | none =>
    refine ⟨es, [], (append_nil es).symm, pairs_around.mpr ⟨hp, hlo, ?_, trivial, trivial⟩⟩
    refine lt_lowest hhi fun e he => ?_
    simpa using List.find?_eq_none.mp hfind e he
  | some e =>
    rw [hfind] at hnew
    obtain ⟨hle, A, B, rfl, hA⟩ := List.find?_eq_some_iff_append.mp hfind
    have hne : e.1 ≠ key := by simpa using hnew
    have hle : e.1 ≤ key := by simpa using hle
    obtain ⟨hpA, h₁, h₂, -, hB⟩ := pairs_around.mp hp
    refine ⟨A, e :: B, rfl, pairs_around.mpr ⟨hpA, hlo, ?_, trivial, h₁, ?_, trivial, hB⟩⟩
    · exact lt_lowest hhi fun a ha => by simpa using hA a ha
    · omega

lemma insertNode_spec (hN : 4 ≤ geo.noPairs) : ∀ {h lo hi : ℕ} {es : Node h}
    {r : Node h × Option (ℕ × Node h)}, Pairs (Kid h) lo hi es → lo ≤ key →
      key < hi → insertNode geo key val h es = some r → Put h lo hi r
  | 0, lo, hi, es, r, hp, hlo, hhi, hins => by
    have hnew : (es.find? (·.1 ≤ key)).any (·.1 = key) = false := by
      by_contra hdup
      rw [insertNode, putPair, if_pos (by simpa using hdup)] at hins
      cases hins
    obtain ⟨A, B, rfl, hp⟩ := exists_place hp hlo hhi hnew
    exact putPair_put hN hp hins
  | h + 1, lo, hi, es, r, hp, hlo, hhi, hins => by
    simp only [insertNode] at hins
    split at hins
    · cases hins
    next A k c B hf =>
    obtain ⟨-, hA, hlok, hkkey, hkA, hc, hB⟩ := hp.findSlot hlo hhi hf
    split at hins
    · cases hins
    · next c' hrec =>
      have hc' : Kid (h + 1) k (lowest hi A) c' := insertNode_spec hN hc.2 hkkey hkA hrec
      cases hins
      exact ⟨by simp, pairs_around.mpr ⟨hA, hlok, by omega, hc', hB⟩⟩
    next c' mid new hrec =>
    obtain ⟨hc', hnew⟩ := insertNode_spec hN hc.2 hkkey hkA hrec
    have hkmid : k < mid := by
      obtain ⟨h₁, h₂⟩ := lowest_lt hc'.2 hc'.1
      omega
    have hmidA : mid < lowest hi A := by
      obtain ⟨h₁, h₂⟩ := lowest_lt hnew.2 hnew.1
      omega
    have hp : Pairs (Kid (h + 1)) lo hi (A ++ (mid, new) :: (k, c') :: B) :=
      pairs_around.mpr ⟨hA, by omega, hmidA, hnew, hlok, hkmid, hc', hB⟩
    exact putPair_put hN hp hins

lemma lowerKeys_spec : ∀ {h lo hi : ℕ} {es : Node h}, Pairs (Kid h) lo hi es →
    lo ≤ key → key < hi → Pairs (Kid h) lo hi (lowerKeys key h es) ∧
      (lowerKeys key h es).length = es.length
  | 0, lo, hi, es, hp, _, _ => ⟨hp, rfl⟩
  | h + 1, lo, hi, es, hp, hlo, hhi => by
    simp only [lowerKeys]
    split
    · exact ⟨hp, rfl⟩
    next A k c B hf =>
    obtain ⟨hlen, hA, hlok, hkkey, hkA, hc, hB⟩ := hp.findSlot hlo hhi hf
    obtain ⟨hc', hl⟩ := lowerKeys_spec hc.2 hkkey hkA
    have hne : lowerKeys key h c ≠ [] := by
      rw [← length_pos_iff, hl, length_pos_iff]
      exact hc.1
    refine ⟨pairs_around.mpr ⟨hA, hlok, by omega, ⟨hne, hc'⟩, hB⟩, ?_⟩
    rw [hlen]
    simp

lemma findIdx_eq_length {es : List P} {p : P → Bool}
    (h : es[es.findIdx p]? = none) : es.findIdx p = es.length := by
  have : es.findIdx p ≤ es.length := findIdx_le_length
  rw [List.getElem?_eq_none_iff] at h
  omega

lemma removeLeaf_spec {ret : ℕ} {es es' : Node 0}
    {removed : Bool} (hp : Pairs (Kid 0) lo hi es)
    (h : removeLeaf geo key es = some (ret, es', removed)) :
    Pairs (Kid 0) lo hi es' ∧ (removed = false → es'.length = es.length) := by
  unfold removeLeaf at h
  simp only at h
  split at h
  · split_ifs at h with heq
    · cases h
      exact ⟨hp.sublist (Kid.raises 0) (eraseIdx_sublist _ _), by simp⟩
    · cases h
      exact ⟨hp, fun _ => rfl⟩
  · split_ifs at h with hlt hzero hnil halias hpad
    · cases h
      exact ⟨hp.sublist (Kid.raises 0) (dropLast_sublist _), by simp⟩
    · cases h
      exact ⟨hp, fun _ => rfl⟩
    · cases h
      exact ⟨hp.sublist (Kid.raises 0) (dropLast_sublist _), by simp⟩
    · cases h
      exact ⟨hp, fun _ => rfl⟩

lemma rebalance_spec {k : ℕ} {A B : Node (h + 1)} {child : Node h}
    (hA : Pairs (Kid (h + 1)) lo hi A) (hlok : lo ≤ k) (hkA : k < lowest hi A)
    (hc : Pairs (Kid h) k (lowest hi A) child) (hB : Pairs (Kid (h + 1)) lo k B) :
    Pairs (Kid (h + 1)) lo hi (rebalance geo A k child B).1 ∧
      ((rebalance geo A k child B).2 = false →
        (rebalance geo A k child B).1.length = (A ++ (k, child) :: B).length) := by
  have hC := Kid.raises h
  have hright : child.length ≠ 0 →
      Pairs (Kid (h + 1)) lo hi (rebalance.rebalanceRight geo A k child B).1 ∧
      ((rebalance.rebalanceRight geo A k child B).2 = false →
        (rebalance.rebalanceRight geo A k child B).1.length = (A ++ (k, child) :: B).length) := by
    intro hne
    have hne : child ≠ [] := by
      rintro rfl
      exact hne rfl
    unfold rebalance.rebalanceRight
    split
    · next k' right B' =>
      obtain ⟨h₁, h₂, h₃, h₄⟩ := hB
      split_ifs with hfit
      · refine ⟨pairs_around.mpr ⟨hA, h₁, by omega, ⟨by simp [hne], ?_⟩, h₄⟩, by simp⟩
        exact Pairs.append hC h₂.le hkA.le hc h₃.2
      · exact ⟨pairs_around.mpr ⟨hA, hlok, hkA, ⟨hne, hc⟩, h₁, h₂, h₃, h₄⟩, fun _ => rfl⟩
    · exact ⟨pairs_around.mpr ⟨hA, hlok, hkA, ⟨hne, hc⟩, trivial⟩, fun _ => rfl⟩
  unfold rebalance
  split_ifs with hempty
  · exact ⟨pairs_append.mpr ⟨hA, hB.raise (Kid.raises (h + 1)) hkA.le⟩, by simp⟩
  split
  · next kl left hlast =>
    split_ifs with hfit
    · obtain ⟨A', rfl⟩ := getLast?_eq_some_iff.mp hlast
      obtain ⟨hA', h₁, h₂, h₃, -⟩ := pairs_around.mp hA
      have hlow : lowest hi (A' ++ [(kl, left)]) = kl := lowest_of_getLast hlast
      rw [hlow] at hkA hc
      rw [dropLast_concat]
      refine ⟨pairs_around.mpr ⟨hA', hlok, by omega, ⟨?_, ?_⟩, hB⟩, by simp⟩
      · simp [h₃.1]
      · exact Pairs.append hC hkA.le h₂.le h₃.2 hc
    · exact hright hempty
  · exact hright hempty

lemma removeNode_spec (hN : 4 ≤ geo.noPairs) : ∀ {h lo hi ret : ℕ} {es es' : Node h}
    {removed : Bool}, Pairs (Kid h) lo hi es → lo ≤ key → key < hi →
      removeNode geo key h es = some (ret, es', removed) →
      Pairs (Kid h) lo hi es' ∧ (removed = false → es'.length = es.length)
  | 0, lo, hi, ret, es, es', removed, hp, _, _, hrem => removeLeaf_spec hp hrem
  | h + 1, lo, hi, ret, es, es', removed, hp, hlo, hhi, hrem => by
    simp only [removeNode] at hrem
    split at hrem
    · cases hrem
    next A k c B hf =>
    obtain ⟨hlen, hA, hlok, hkkey, hkA, hc, hB⟩ := hp.findSlot hlo hhi hf
    split at hrem
    · cases hrem
    next ret' c' removed' hrec =>
    obtain ⟨hc', hkeep⟩ := removeNode_spec hN hc.2 hkkey hkA hrec
    split_ifs at hrem with hsmall
    · simp only [Option.some.injEq, Prod.mk.injEq] at hrem
      obtain ⟨-, hrem⟩ := hrem
      have hre : Pairs (Kid (h + 1)) lo hi (rebalance geo A k c' B).1 ∧
          ((rebalance geo A k c' B).2 = false →
            (rebalance geo A k c' B).1.length = (A ++ (k, c') :: B).length) :=
        rebalance_spec hA hlok (hkkey.trans_lt hkA) hc' hB
      rw [hrem] at hre
      refine ⟨hre.1, fun hfalse => ?_⟩
      rw [hre.2 hfalse, hlen]
      simp
    · cases hrem
      have hne : c' ≠ [] := by
        rintro rfl
        cases removed' with
        | true => exact hsmall ⟨rfl, by rw [length_nil]; omega⟩
        | false => exact hc.1 (length_eq_zero_iff.mp (hkeep rfl).symm)
      refine ⟨pairs_around.mpr ⟨hA, hlok, by omega, ⟨hne, hc'⟩, hB⟩, fun _ => ?_⟩
      rw [hlen]
      simp

lemma btreeGeo_noPairs (L : LongSize) {keylen nodesize : ℕ} (hlen : keylen ≤ 128 / L.bits)
    (hsize : 128 ≤ nodesize) : 4 ≤ (btreeGeo L keylen nodesize).noPairs := by
  have hle : keylen ≤ 4 := by
    cases L <;> simp only [LongSize.bits] at hlen <;> omega
  rw [btreeGeo, Nat.le_div_iff_mul_le (by omega)]
  cases L <;> simp only [LongSize.bits] at hlen ⊢ <;>
    rw [Nat.le_div_iff_mul_le (by omega)] <;> omega

def HeadOk (geo : Geo) : Head → Prop
  | .empty => True
  | .root h node => Pairs (Kid h) 0 geo.keys node

inductive Reach (geo : Geo) : Head → Prop
  | empty : Reach geo .empty
  | insert {head head' : Head} {alloc : Bool} {key val : ℕ} {ret : ℤ} : Reach geo head →
      key < geo.keys → btreeInsert geo alloc key val head = some (ret, head') → Reach geo head'
  | remove {head head' : Head} {key ret : ℕ} : Reach geo head → key < geo.keys →
      btreeRemove geo key head = some (ret, head') → Reach geo head'

lemma btreeInsert_ok (hN : 4 ≤ geo.noPairs) {alloc : Bool}
    {ret : ℤ} (hok : HeadOk geo head) (hkey : key < geo.keys)
    (h : btreeInsert geo alloc key val head = some (ret, head')) : HeadOk geo head' := by
  cases head with
  | empty =>
    simp only [btreeInsert] at h
    split_ifs at h
    · cases h
      exact ⟨Nat.zero_le _, hkey, trivial, trivial⟩
    · cases h
      trivial
  | root hgt node =>
    simp only [btreeInsert] at h
    split_ifs at h with hval halloc
    · split at h
      · cases h
      · cases h
        exact (lowerKeys_spec hok (Nat.zero_le key) hkey).1
    split at h
    · cases h
    next node' new hins =>
    have hput := insertNode_spec hN hok (Nat.zero_le key) hkey hins
    split at h
    · cases h
      exact hput.2
    next mid new =>
    obtain ⟨hnode, hnew⟩ := hput
    split at h
    · cases h
    next k c hlast =>
    cases h
    have hlow : lowest mid node' = k := lowest_of_getLast hlast
    obtain ⟨-, hk⟩ := lowest_lt hnode.2 hnode.1
    obtain ⟨h₁, h₂⟩ := lowest_lt hnew.2 hnew.1
    have hself := hnode.2.self_lowest
    rw [hlow] at hk hself
    exact ⟨Nat.zero_le _, h₁.trans_lt h₂, hnew, Nat.zero_le _, hk, ⟨hnode.1, hself⟩,
      trivial⟩

lemma btreeRemove_ok (hN : 4 ≤ geo.noPairs) {ret : ℕ}
    (hok : HeadOk geo head) (hkey : key < geo.keys)
    (h : btreeRemove geo key head = some (ret, head')) : HeadOk geo head' := by
  match head, hok with
  | .empty, _ =>
    cases h
    trivial
  | .root 0 node, hok =>
    simp only [btreeRemove, Option.map_eq_some_iff] at h
    obtain ⟨⟨ret', node', removed⟩, hrem, h⟩ := h
    cases h
    exact (removeNode_spec hN hok (Nat.zero_le key) hkey hrem).1
  | .root (hgt + 1) node, hok =>
    simp only [btreeRemove] at h
    split at h
    · cases h
    next ret' node' removed hrem =>
    have hnode := (removeNode_spec hN hok (Nat.zero_le key) hkey hrem).1
    split_ifs at h
    · split at h
      · cases h
      · next k c hhead =>
        cases h
        cases node' with
        | nil => cases hhead
        | cons e es =>
          cases hhead
          obtain ⟨-, h₂, h₃, -⟩ := hnode
          exact h₃.2.lower (Nat.zero_le _)
    · cases h
      exact hnode

lemma Reach.ok (hN : 4 ≤ geo.noPairs) (hr : Reach geo head) : HeadOk geo head := by
  induction hr with
  | empty => trivial
  | insert _ hkey h ih => exact btreeInsert_ok hN ih hkey h
  | remove _ hkey h ih => exact btreeRemove_ok hN ih hkey h

end LinuxKernel.Btree
