import LinuxKernel.Proofs.Btree

/-!
# Searching B+trees

In an ordered tree a walk down by the parent keys misses no pair. `btree_remove` of a key that is
not stored changes parent keys only, unless the comparison at the position behind the pairs of the
leaf succeeds by accident.
-/

namespace LinuxKernel.Btree

def stored : (h : ℕ) → Node h → List (ℕ × ℕ)
  | 0, es => es
  | h + 1, es => es.flatMap fun e => stored h e.2

def Head.stored : Head → List (ℕ × ℕ)
  | .empty => []
  | .root h node => Btree.stored h node

lemma stored_bounds : ∀ {h lo hi : ℕ} {es : Node h}, Pairs (Kid h) lo hi es →
    ∀ p ∈ stored h es, lo ≤ p.1 ∧ p.1 < hi
  | 0, lo, hi, es, hp, p, hmem => by
    obtain ⟨u, hu, h₁, h₂, -⟩ := hp.bounds_of_mem p hmem
    omega
  | h + 1, lo, hi, es, hp, p, hmem => by
    obtain ⟨e, he, hpe⟩ := List.mem_flatMap.mp hmem
    obtain ⟨u, hu, h₁, h₂, h₃⟩ := hp.bounds_of_mem e he
    have := stored_bounds h₃.2 p hpe
    omega

variable {h hi key lo : ℕ} {l m : List (ℕ × ℕ)} {es : Node h} {geo : Geo}

lemma stored_around {k : ℕ} {A B : Node (h + 1)} {c : Node h}
    (hp : Pairs (Kid (h + 1)) lo hi (A ++ (k, c) :: B)) :
    stored (h + 1) (A ++ (k, c) :: B) = stored (h + 1) A ++ stored h c ++ stored (h + 1) B ∧
      (∀ p ∈ stored (h + 1) A, lowest hi A ≤ p.1) ∧ (∀ p ∈ stored h c, k ≤ p.1) ∧
      ∀ p ∈ stored (h + 1) B, p.1 < k := by
  obtain ⟨hA, -, -, hc, hB⟩ := pairs_around.mp hp
  refine ⟨by simp [stored], fun p hmem => ?_, fun p hmem => ?_, fun p hmem => ?_⟩
  · exact (stored_bounds hA.self_lowest p hmem).1
  · exact (stored_bounds hc.2 p hmem).1
  · exact (stored_bounds hB p hmem).2

lemma find_around (hp : Pairs (Kid h) lo hi es) (hhi : key < hi)
    {e : ℕ × Slot h} (hf : es.find? (·.1 ≤ key) = some e) :
    ∃ A B, es = A ++ e :: B ∧ key < lowest hi A ∧ e.1 ≤ key := by
  obtain ⟨hle, A, B, rfl, hA⟩ := List.find?_eq_some_iff_append.mp hf
  refine ⟨A, B, rfl, lt_lowest hhi fun a ha => ?_, by simpa using hle⟩
  simpa using hA a ha

lemma find_none (hp : Pairs (Kid h) lo hi es)
    (hf : es.find? (·.1 ≤ key) = none) : ∀ p ∈ stored h es, key < p.1 := by
  have hes : ∀ e ∈ es, key < e.1 := fun e he => by simpa using List.find?_eq_none.mp hf e he
  cases h with
  | zero => exact hes
  | succ h =>
    intro p hmem
    obtain ⟨e, he, hpe⟩ := List.mem_flatMap.mp hmem
    obtain ⟨u, -, -, -, hk⟩ := hp.bounds_of_mem e he
    exact (hes e he).trans_le (stored_bounds hk.2 p hpe).1

def valueOf (key : ℕ) (l : List (ℕ × ℕ)) : ℕ :=
  match l.find? (·.1 = key) with
  | none => 0
  | some e => e.2

lemma valueOf_append (h : ∀ p ∈ l, p.1 ≠ key) :
    valueOf key (l ++ m) = valueOf key m := by
  have hl : l.find? (·.1 = key) = none := by
    rw [List.find?_eq_none]
    simpa using h
  rw [valueOf, valueOf, List.find?_append, hl, Option.none_or]

lemma valueOf_append_right (h : ∀ p ∈ m, p.1 ≠ key) :
    valueOf key (l ++ m) = valueOf key l := by
  have hm : m.find? (·.1 = key) = none := by
    rw [List.find?_eq_none]
    simpa using h
  rw [valueOf, valueOf, List.find?_append, hm, Option.or_none]

lemma valueOf_none (h : ∀ p ∈ l, p.1 ≠ key) : valueOf key l = 0 := by
  have := valueOf_append (m := []) h
  rwa [List.append_nil] at this

lemma lookupNode_eq : ∀ {h lo hi : ℕ} {es : Node h}, Pairs (Kid h) lo hi es →
    key < hi → lookupNode key h es = valueOf key (stored h es)
  | 0, lo, hi, es, _, _ => rfl
  | h + 1, lo, hi, es, hp, hhi => by
    simp only [lookupNode]
    split
    · next hf => exact (valueOf_none fun p hmem => (find_none hp hf p hmem).ne').symm
    next e hf =>
    obtain ⟨k, c⟩ := e
    obtain ⟨A, B, rfl, hA, hle⟩ := find_around hp hhi hf
    obtain ⟨hs, hsA, -, hsB⟩ := stored_around hp
    obtain ⟨-, -, -, hc, -⟩ := pairs_around.mp hp
    rw [hs, valueOf_append_right, valueOf_append, lookupNode_eq hc.2 hA]
    · intro p hmem
      have := hsA p hmem
      omega
    · intro p hmem
      have := hsB p hmem
      simp only at hle
      omega

lemma stored_lowerKeys : ∀ {h lo hi : ℕ} {es : Node h}, Pairs (Kid h) lo hi es →
    lo ≤ key → key < hi → stored h (lowerKeys key h es) = stored h es
  | 0, _, _, _, _, _, _ => rfl
  | h + 1, lo, hi, es, hp, hlo, hhi => by
    simp only [lowerKeys]
    split
    · rfl
    · next A k c B hf =>
      obtain ⟨k₀, rfl, -⟩ := findSlot_spec hp hlo hhi hf
      obtain ⟨-, -, -, hkkey, hkA, hc, -⟩ := hp.findSlot hlo hhi hf
      simp [stored, stored_lowerKeys hc.2 hkkey hkA]

def leafOf (key : ℕ) : (h : ℕ) → Node h → Node 0
  | 0, es => es
  | h + 1, es =>
    match findSlot key es with
    | none => []
    | some (_, (_, c), _) => leafOf key h c

lemma removeNode_absent (hzero : key ≠ 0) : ∀ {h lo hi : ℕ} {es : Node h},
    Pairs (Kid h) lo hi es → lo ≤ key → key < hi → (h ≠ 0 → es ≠ []) →
      (∀ p ∈ stored h es, p.1 ≠ key) →
      (geo.noPairs ≤ (leafOf key h es).length → valWords geo (leafOf key h es) ≠ key) →
      removeNode geo key h es = some (0, lowerKeys key h es, false)
  | 0, lo, hi, es, _, _, _, _, habsent, halias => by
    simp only [removeNode, removeLeaf]
    split
    · next e he =>
      rw [if_neg (habsent e (List.mem_of_getElem? he))]
      rfl
    next hnone =>
    have hpos := findIdx_eq_length hnone
    split_ifs with hlt hlen hlen
    · rfl
    · exact absurd ‹_› (halias (by rw [leafOf]; omega))
    · exact absurd ‹_› (halias (by rw [leafOf]; omega))
    · rfl
  | h + 1, lo, hi, es, hp, hlo, hhi, hne, habsent, halias => by
    have hsome : (findSlot key es).isSome := findSlot_isSome (hne (Nat.succ_ne_zero h))
    obtain ⟨⟨A, ⟨k, c⟩, B⟩, hf⟩ := Option.isSome_iff_exists.mp hsome
    obtain ⟨k₀, rfl, -⟩ := findSlot_spec hp hlo hhi hf
    obtain ⟨-, -, -, hkkey, hkA, hc, -⟩ := hp.findSlot hlo hhi hf
    simp only [leafOf, hf] at halias
    have hrec := removeNode_absent hzero hc.2 hkkey hkA (fun _ => hc.1)
      (fun p hmem => habsent p (by simp [stored, hmem])) halias
    simp only [removeNode, lowerKeys, hf, hrec, Bool.false_eq_true, false_and, if_false]

/-- An inner root that lost all its children. -/
def Head.emptied : Head → Prop
  | .root (_ + 1) [] => True
  | _ => False

/-- The leaf for a key is full and its first values, read as a key, are the key. -/
def Head.alias (geo : Geo) (key : ℕ) : Head → Prop
  | .empty => False
  | .root h node =>
    geo.noPairs ≤ (leafOf key h node).length ∧ valWords geo (leafOf key h node) = key

def insertAll (geo : Geo) : List ℕ → Head → Option Head
  | [], head => some head
  | key :: keys, head =>
    match btreeInsert geo true key key head with
    | none => none
    | some (_, head) => insertAll geo keys head

lemma Reach.insertAll : ∀ (keys : List ℕ) {head head' : Head}, Reach geo head →
    (∀ k ∈ keys, k < geo.keys) → insertAll geo keys head = some head' → Reach geo head'
  | [], head, head', hr, _, h => by
    cases h
    exact hr
  | key :: keys, head, head', hr, hk, h => by
    simp only [Btree.insertAll] at h
    split at h
    · cases h
    · next ret head₁ hins =>
      have hr₁ := hr.insert (hk key (by simp)) hins
      exact Reach.insertAll keys hr₁ (fun k hmem => hk k (List.mem_cons_of_mem _ hmem)) h

end LinuxKernel.Btree
