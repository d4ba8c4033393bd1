import LinuxKernel.Proofs.BtreeSearch

/-!
# The greatest smaller key

A walk of `btree_get_prev` that misses has shown that no key lies between the last parent key it
passed and the one it looks for, and is repeated below that parent key. The repeated walk reads that
key in the node, and writes the key it finds there.
-/

namespace LinuxKernel.Btree

variable {geo : Geo} {h lo hi q : ℕ} {es node : Node h}

def IsGreatest (q : ℕ) (l : List (ℕ × ℕ)) (e : ℕ × ℕ) : Prop :=
  e ∈ l ∧ e.1 ≤ q ∧ ∀ p ∈ l, p.1 ≤ q → p.1 ≤ e.1

lemma getElem_findIdx {P : Type} (es : List P) (p : P → Bool) :
    es[es.findIdx p]? = es.find? p := by
  induction es with
  | nil => rfl
  | cons e es ih =>
    rw [List.findIdx_cons, List.find?_cons]
    cases p e with
    | true => rfl
    | false => simpa using ih

lemma prevNode_succ (q h : ℕ) (es : Node (h + 1)) (path : List ℕ) (retry : Option (ℕ × List ℕ)) :
    prevNode q (h + 1) es path retry = match es.find? (·.1 ≤ q) with
      | none => (none, retry)
      | some (k, c) => prevNode q h c (path ++ [es.findIdx (·.1 ≤ q)])
          (some (k, path ++ [es.findIdx (·.1 ≤ q)])) := by
  cases hfind : es.find? (·.1 ≤ q) with
  | none => rw [prevNode, getElem_findIdx, hfind]
  | some e => rw [prevNode, getElem_findIdx, hfind]

lemma prevNode_hit : ∀ {h lo hi : ℕ} {es : Node h} {path : List ℕ}
    {retry : Option (ℕ × List ℕ)} {e : ℕ × ℕ}, Pairs (Kid h) lo hi es → q < hi →
      (prevNode q h es path retry).1 = some e → IsGreatest q (stored h es) e
  | 0, lo, hi, es, path, retry, e, hp, hhi, hf => by
    obtain ⟨A, B, rfl, hA, hle⟩ := find_around hp hhi hf
    obtain ⟨hpA, -, -, -, hB⟩ := pairs_around.mp hp
    refine ⟨by simp [stored], hle, fun p hmem hpq => ?_⟩
    simp only [stored, List.mem_append, List.mem_cons] at hmem
    rcases hmem with hmem | rfl | hmem
    · have := hpA.lowest_le_of_mem p hmem
      omega
    · exact le_refl p.1
    · exact (hB.lt_of_mem p hmem).le
  | h + 1, lo, hi, es, path, retry, e, hp, hhi, hf => by
    rw [prevNode_succ] at hf
    split at hf
    · cases hf
    next k c hfind =>
    obtain ⟨A, B, rfl, hA, hle⟩ := find_around hp hhi hfind
    obtain ⟨-, -, -, hc, -⟩ := pairs_around.mp hp
    obtain ⟨hs, hsA, hsc, hsB⟩ := stored_around hp
    obtain ⟨hmem, heq, hgreat⟩ := prevNode_hit hc.2 hA hf
    rw [hs]
    refine ⟨by simp [hmem], heq, fun p hp' hpq => ?_⟩
    simp only [List.mem_append, or_assoc] at hp'
    rcases hp' with hp' | hp' | hp'
    · have := hsA p hp'
      omega
    · exact hgreat p hp' hpq
    · have h₁ := hsB p hp'
      have h₂ := hsc e hmem
      omega

lemma prevNode_retry : ∀ {h : ℕ} {es : Node h} {path : List ℕ} {retry : Option (ℕ × List ℕ)}
    {k : ℕ} {path' : List ℕ}, (∀ r, retry = some r → r.1 ≤ q) →
      (prevNode q h es path retry).2 = some (k, path') → k ≤ q
  | 0, es, path, retry, k, path', hr, h => hr _ h
  | h + 1, es, path, retry, k, path', hr, hf => by
    rw [prevNode_succ] at hf
    split at hf
    · exact hr _ hf
    · next k' c hfind =>
      refine prevNode_retry (fun r hr' => ?_) hf
      cases hr'
      simpa using (List.find?_some hfind)

lemma dec_key {key : ℕ} (hpos : key ≠ 0) (hkey : key < geo.keys) :
    (key + geo.keys - 1) % geo.keys = key - 1 := by
  rw [show key + geo.keys - 1 = key - 1 + geo.keys by omega, Nat.add_mod_right,
    Nat.mod_eq_of_lt (by omega)]

lemma prevLoop_none {K buf : ℕ} (hok : Pairs (Kid h) 0 geo.keys node) (hK : K < geo.keys)
    (hstored : ∀ p ∈ stored h node, K ≤ p.1)
    (hparent : ∀ q < K, ∀ k path, (prevNode q h node [] none).2 = some (k, path) → k ≠ 0) :
    ∀ {fuel key : ℕ} {place : Option (List ℕ)}, key ≠ 0 → key ≤ K → key ≤ fuel →
      prevLoop geo node buf fuel place key = some (0, buf, node)
  | 0, key, place, hpos, _, hfuel => by omega
  | fuel + 1, key, place, hpos, hle, hfuel => by
    rw [prevLoop, dec_key hpos (by omega)]
    cases hwalk : prevNode (key - 1) h node [] none with
    | mk found retry =>
      cases found with
      | some e =>
        have hfst : (prevNode (key - 1) h node [] none).1 = some e := congrArg Prod.fst hwalk
        have hhit := prevNode_hit hok (by omega) hfst
        have := hstored e hhit.1
        have := hhit.2.1
        omega
      | none =>
        cases retry with
        | none => rfl
        | some r =>
          obtain ⟨k, path⟩ := r
          have hr : (prevNode (key - 1) h node [] none).2 = some (k, path) :=
            congrArg Prod.snd hwalk
          have hk := prevNode_retry (fun _ hr => by cases hr) hr
          exact prevLoop_none hok hK hstored hparent (hparent _ (by omega) k path hr) (by omega)
            (by omega)

/-- The first walk hits, or nothing is to be found and no walk for a smaller key passes a parent key
0. -/
def PrevFirst (key : ℕ) : Head → Prop
  | .empty => True
  | .root h node => (prevNode (key - 1) h node [] none).1.isSome ∨
      (∀ p ∈ stored h node, key ≤ p.1) ∧
        ∀ q < key, ∀ k path, (prevNode q h node [] none).2 = some (k, path) → k ≠ 0

lemma reach_gap : Reach (btreeGeo .long64 1 128)
    (.root 1 [(50, [(90, 90), (80, 80), (70, 70), (60, 60)]),
      (10, [(40, 40), (30, 30), (20, 20), (10, 10)])]) := by
  have hr : Reach (btreeGeo .long64 1 128)
      (.root 1 [(50, [(90, 90), (80, 80), (70, 70), (60, 60), (50, 50)]),
        (10, [(40, 40), (30, 30), (20, 20), (10, 10)])]) :=
    Reach.insertAll [10, 20, 30, 40, 50, 60, 70, 80, 90] .empty (by decide) rfl
  have hrem : btreeRemove (btreeGeo .long64 1 128) 50
      (.root 1 [(50, [(90, 90), (80, 80), (70, 70), (60, 60), (50, 50)]),
        (10, [(40, 40), (30, 30), (20, 20), (10, 10)])]) =
      some (50, .root 1 [(50, [(90, 90), (80, 80), (70, 70), (60, 60)]),
        (10, [(40, 40), (30, 30), (20, 20), (10, 10)])]) := rfl
  exact hr.remove (by decide) hrem

end LinuxKernel.Btree
