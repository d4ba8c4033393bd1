import LinuxKernel.Proofs.PrioTreeIter

/-!
# `prio_tree_next` enumerates the overlapping nodes

`prio_tree_next` returns the first of the overlapping nodes still to come. `prio_tree_first` goes
down without ever coming back: if it is beyond the query on the left, so is all on the right.
-/

namespace LinuxKernel.PrioTree

open List

variable {W r h : ℕ} {root : Root} {iter : Iter} {x : Interval} {l t : Tree}

def meets (r h : ℕ) (x : Interval) : Bool := decide (h ≥ x.start ∧ r ≤ x.last)

def hits (r h : ℕ) (t : Tree) : List Interval := t.toList.filter (meets r h)

/-- The overlapping nodes to the right of the path. -/
def pending (r h : ℕ) : List Frame → List Interval
  | [] => []
  | .left _ t :: path => hits r h t ++ pending r h path
  | .right _ _ :: path => pending r h path

/-- The overlapping nodes to come below a node. -/
def below (r h : ℕ) (phase : Phase) : Tree → List Interval
  | .nil => []
  | .node l _ t =>
    match phase with
    | .left => hits r h l ++ hits r h t
    | .right => hits r h t

/-- What is to come after the node of an iterator. -/
def todo (r h : ℕ) (s : Phase × Iter) : List Interval :=
  below r h s.1 s.2.cur ++ pending r h s.2.path

def pathWeight : List Frame → ℕ
  | [] => 0
  | .left _ t :: path => 3 * t.size + 1 + pathWeight path
  | .right _ _ :: path => pathWeight path

/-- A bound of the rounds of `prio_tree_next`. -/
def weight : Phase × Iter → ℕ
  | (.left, iter) => 3 * iter.cur.size + pathWeight iter.path
  | (.right, iter) =>
    match iter.cur with
    | .node _ _ t => 3 * t.size + 1 + pathWeight iter.path
    | .nil => 0

lemma hits_node (l t : Tree) (x : Interval) : hits r h (.node l x t) =
    (if meets r h x then [x] else []) ++ (hits r h l ++ hits r h t) := by
  unfold hits
  rw [Tree.toList, filter_cons, filter_append]
  split_ifs <;> rfl

lemma overlap_eq_meets (l t : Tree) (x : Interval) :
    overlap r h (.node l x t) = meets r h x := rfl

lemma hits_eq_nil (hno : ∀ z ∈ t.toList, meets r h z = false) : hits r h t = [] :=
  filter_eq_nil_iff.mpr fun z hz => by simp [hno z hz]

lemma meets_of_last {z : Interval} (hz : z.last < r) : meets r h z = false := by
  simp [meets]
  omega

lemma meets_of_start {z : Interval} (hz : h < z.start) : meets r h z = false := by
  simp [meets]
  omega

lemma prioTreeLeft_spec (hW : 1 < W) (hv : Valid W root) (ha : At W root iter)
    (hcur : iter.cur = .node l x t) :
    (prioTreeLeft W r iter = some none ∧ hits r h l = []) ∨
    ∃ iter' a y b, prioTreeLeft W r iter = some (some iter') ∧ At W root iter' ∧
      iter'.cur = .node a y b ∧ l = .node a y b ∧ r ≤ y.last ∧
      iter'.path = .left x t :: iter.path := by
  unfold prioTreeLeft
  rw [hcur]
  cases l with
  | nil => exact .inl ⟨rfl, rfl⟩
  | node a y b =>
    obtain ⟨j, hi⟩ := ha.inner hW hv hcur (.inl (by simp))
    simp only
    split_ifs with hr
    · obtain ⟨m, hm⟩ := hi.down_some hcur (.inl rfl) (by simp)
      rw [hm]
      exact .inr ⟨_, a, y, b, rfl, ha.left hcur (by simp) hm, rfl, rfl, hr, rfl⟩
    refine .inl ⟨rfl, hits_eq_nil fun z hz => meets_of_last ?_⟩
    have ho := hi.ordered
    rw [hcur] at ho
    have := ho.2.2.1.last_le z hz
    omega

lemma Inner.rightValue_le {j : ℕ} (hi : Inner W iter j)
    (hcur : iter.cur = .node l x t) : ∀ z ∈ t.toList, iter.rightValue ≤ z.start := fun z hz => by
  have hh := (hi.holds_child hcur).2 hz
  unfold Holds at hh
  rw [hh]
  split_ifs
  · exact le_rfl
  · exact Nat.div_mul_le_self _ _

lemma prioTreeRight_spec (hW : 1 < W) (hv : Valid W root) (ha : At W root iter)
    (hcur : iter.cur = .node l x t) :
    (prioTreeRight W r h iter = some none ∧ hits r h t = []) ∨
    ∃ iter' a y b, prioTreeRight W r h iter = some (some iter') ∧ At W root iter' ∧
      iter'.cur = .node a y b ∧ t = .node a y b ∧ r ≤ y.last ∧
      iter'.path = .right l x :: iter.path := by
  unfold prioTreeRight
  rw [hcur]
  cases t with
  | nil => exact .inl ⟨rfl, rfl⟩
  | node a y b =>
    obtain ⟨j, hi⟩ := ha.inner hW hv hcur (.inr (by simp))
    have hvalue : (if iter.sizeLevel ≠ 0 then iter.value else iter.value ||| iter.mask) =
        iter.rightValue := rfl
    simp only [hvalue]
    split_ifs with hh hr
    · refine .inl ⟨rfl, hits_eq_nil fun z hz => meets_of_start ?_⟩
      have := hi.rightValue_le hcur z hz
      omega
    · obtain ⟨m, hm⟩ := hi.down_some hcur (.inr rfl) (by simp)
      rw [hm]
      exact .inr ⟨_, a, y, b, rfl, ha.right hcur (by simp) hm, rfl, rfl, hr, rfl⟩
    · refine .inl ⟨rfl, hits_eq_nil fun z hz => meets_of_last ?_⟩
      have ho := hi.ordered
      rw [hcur] at ho
      have := ho.2.2.2.last_le z hz
      omega

/-- The way up ends at the root, with nothing to come, or at the next node left by its left
child. -/
lemma climb_spec (hW : 1 < W) (hv : Valid W root) (ha : At W root iter) :
    (climb W iter iter.path = none ∧ pending r h iter.path = []) ∨
    ∃ iter' l x t, climb W iter iter.path = some iter' ∧ At W root iter' ∧
      iter'.cur = .node l x t ∧ pending r h iter.path = hits r h t ++ pending r h iter'.path ∧
      pathWeight iter.path = 3 * t.size + 1 + pathWeight iter'.path := by
  induction ha with
  | top hne => exact .inl ⟨rfl, rfl⟩
  | @left iter l t x m ha hcur hne hdown ih =>
    obtain ⟨j, hi⟩ := ha.inner hW hv hcur (.inl hne)
    refine .inr ⟨iter, l, x, t, ?_, ha, hcur, rfl, rfl⟩
    rw [climb, up_left hW hi hcur hne hdown, ← hcur]
  | @right iter l t x m ha hcur hne hdown ih =>
    obtain ⟨j, hi⟩ := ha.inner hW hv hcur (.inr hne)
    have hup : climb W ⟨m.1, iter.rightValue, m.2, t, .right l x :: iter.path⟩
        (.right l x :: iter.path) = climb W iter iter.path := by
      rw [climb, up_right hW hi hcur hne hdown, ← hcur]
    simp only [hup, pending, pathWeight]
    exact ih

def Answer (W r h : ℕ) (root : Root) (L : List Interval) : Option (Option Iter) → Prop
  | none => False
  | some none => L = []
  | some (some iter) => At W root iter ∧ ∃ a y b, iter.cur = .node a y b ∧
      L = y :: todo r h (.left, iter)

lemma descend_next {a b : Tree} {y : Interval} {L : List Interval} {n : ℕ}
    (ha : At W root iter) (hcur : iter.cur = .node a y b)
    (hL : hits r h (.node a y b) ++ pending r h iter.path = L) (hn : weight (.left, iter) < n) :
    (if overlap r h iter.cur then Pass.leave (some (some iter)) else Pass.again (Phase.left, iter)
      : Pass (Phase × Iter) (Option (Option Iter))).Next
        (fun s => At W root s.2 ∧ todo r h s = L) (Answer W r h root L) weight n := by
  rw [hits_node] at hL
  have htodo : todo r h (.left, iter) =
      hits r h a ++ hits r h b ++ pending r h iter.path := by simp [todo, below, hcur]
  rw [hcur, overlap_eq_meets]
  split_ifs with hm
  · rw [if_pos hm] at hL
    refine ⟨ha, a, y, b, hcur, ?_⟩
    rw [htodo, ← hL]
    simp
  · rw [if_neg hm] at hL
    refine ⟨⟨ha, ?_⟩, hn⟩
    rw [htodo, ← hL]
    simp

lemma nextPass_next (hW : 1 < W) (hv : Valid W root) {L : List Interval} (s : Phase × Iter)
    (hs : At W root s.2 ∧ todo r h s = L) :
    (nextPass W r h s).Next (fun s => At W root s.2 ∧ todo r h s = L) (Answer W r h root L)
      weight (weight s) := by
  obtain ⟨phase, iter⟩ := s
  obtain ⟨ha, hL⟩ := hs
  simp only at ha
  obtain ⟨l, x, t, hcur⟩ : ∃ l x t, iter.cur = .node l x t := by
    cases hc : iter.cur with
    | nil => exact absurd hc ha.ne_nil
    | node l x t => exact ⟨l, x, t, rfl⟩
  cases phase with
  | left =>
    have hL' : hits r h l ++ hits r h t ++ pending r h iter.path = L := by
      rw [← hL]
      simp [todo, below, hcur]
    rcases prioTreeLeft_spec (r := r) (h := h) hW hv ha hcur with ⟨heq, hnil⟩ |
        ⟨iter', a, y, b, heq, ha', hcur', rfl, -, hpath⟩
    · simp only [nextPass, heq]
      refine ⟨⟨ha, ?_⟩, ?_⟩
      · rw [← hL', hnil]
        simp [todo, below, hcur]
      · simp only [weight, hcur, Tree.size]
        omega
    · simp only [nextPass, heq]
      refine descend_next ha' hcur' ?_ ?_
      · rw [hpath, pending, ← hL', append_assoc]
      · simp only [weight, hcur, hcur', hpath, pathWeight, Tree.size]
        omega
  | right =>
    have hL' : hits r h t ++ pending r h iter.path = L := by
      rw [← hL]
      simp [todo, below, hcur]
    rcases prioTreeRight_spec (r := r) (h := h) hW hv ha hcur with ⟨heq, hnil⟩ |
        ⟨iter', a, y, b, heq, ha', hcur', rfl, -, hpath⟩
    · rw [hnil, nil_append] at hL'
      rcases climb_spec (r := r) (h := h) hW hv ha with ⟨hup, hpend⟩ |
          ⟨iter', l', x', t', hup, ha', hcur', hpend, hweight⟩
      · simp only [nextPass, heq, hup]
        show L = []
        rw [← hL', hpend]
      · simp only [nextPass, heq, hup]
        refine ⟨⟨ha', ?_⟩, ?_⟩
        · rw [← hL', hpend]
          simp [todo, below, hcur']
        · simp only [weight, hcur, hcur', hweight]
          omega
    · simp only [nextPass, heq]
      refine descend_next ha' hcur' ?_ ?_
      · rw [hpath, pending, ← hL']
      · simp only [weight, hcur, hcur', hpath, pathWeight, Tree.size]
        omega

lemma At.weight_le (ha : At W root iter) :
    weight (.left, iter) ≤ 3 * root.tree.size := by
  induction ha with
  | top hne => simp [weight, pathWeight]
  | left _ hcur _ _ ih =>
    simp only [weight, hcur, pathWeight, Tree.size] at ih ⊢
    omega
  | right _ hcur _ _ ih =>
    simp only [weight, hcur, pathWeight, Tree.size] at ih ⊢
    omega

lemma collect_eq (hW : 1 < W) (hv : Valid W root) {fuel : ℕ} (hfuel : 3 * root.tree.size < fuel) :
    ∀ {n : ℕ} {iter : Iter}, At W root iter → (todo r h (.left, iter)).length < n →
      collect W r h fuel n iter = some (todo r h (.left, iter))
  | 0, _, _, hn => by omega
  | n + 1, iter, ha, hn => by
    have hweight := ha.weight_le
    obtain ⟨res, hrun, hres⟩ := Pass.run_of_next (nextPass_next (r := r) (h := h) hW hv) fuel
      (s := (.left, iter)) ⟨ha, rfl⟩ (by omega)
    rw [collect, prioTreeNext, hrun]
    match res, hres with
    | some none, hres => rw [show todo r h (.left, iter) = [] from hres]
    | some (some iter'), ⟨ha', a, y, b, hcur, htodo⟩ =>
      have hlen : (todo r h (.left, iter')).length < n := by
        rw [htodo, length_cons] at hn
        omega
      simp only [hcur, collect_eq hW hv hfuel ha' hlen, htodo]

/-- An iterator of `prio_tree_first`: beyond the query there is nothing to come on the right of the
path. -/
structure Finding (W r h : ℕ) (root : Root) (L : List Interval) (iter : Iter) : Prop where
  at_ : At W root iter
  top : ∃ a y b, iter.cur = .node a y b ∧ r ≤ y.last ∧
    (meets r h y = false → pending r h iter.path = [])
  hits_eq : hits r h iter.cur ++ pending r h iter.path = L

lemma firstPass_next (hW : 1 < W) (hv : Valid W root) {L : List Interval} (iter : Iter)
    (hs : Finding W r h root L iter) :
    (firstPass W r h iter).Next (Finding W r h root L) (Answer W r h root L)
      (fun iter => iter.cur.size) iter.cur.size := by
  obtain ⟨ha, ⟨l, x, t, hcur, hrx, hpend⟩, hL⟩ := hs
  rw [hcur, hits_node] at hL
  unfold firstPass
  by_cases hm : meets r h x
  · rw [if_pos (by rw [hcur]; exact hm)]
    rw [if_pos hm] at hL
    refine ⟨ha, l, x, t, hcur, ?_⟩
    rw [← hL]
    simp [todo, below, hcur]
  have hpend' := hpend (by simpa using hm)
  have hbeyond : h < x.start := by
    simp only [meets, decide_eq_true_iff] at hm
    omega
  rw [if_neg (by rw [hcur]; exact hm)]
  rw [if_neg hm, hpend', nil_append, append_nil] at hL
  rcases prioTreeLeft_spec (r := r) (h := h) hW hv ha hcur with ⟨heq, hnil⟩ |
      ⟨iter', a, y, b, heq, ha', hcur', hl, hry, hpath⟩
  · rw [hnil, nil_append] at hL
    rcases prioTreeRight_spec (r := r) (h := h) hW hv ha hcur with ⟨heq', hnil'⟩ |
        ⟨iter', a, y, b, heq', ha', hcur', ht, hry, hpath⟩
    · simp only [heq, heq']
      show L = []
      rw [← hL, hnil']
    · simp only [heq, heq']
      refine ⟨⟨ha', ⟨a, y, b, hcur', hry, fun _ => ?_⟩, ?_⟩, ?_⟩
      · rw [hpath, pending, hpend']
      · rw [hpath, pending, hpend', hcur', ← ht, hL, append_nil]
      · simp only [hcur', hcur, ht, Tree.size]
        omega
  · simp only [heq]
    have hpend'' : meets r h y = false → pending r h iter'.path = [] := fun hmy => by
      -- the node on the left is beyond the query, and so is what is on the right
      obtain ⟨j, hi⟩ := ha.inner hW hv hcur (.inl (by rw [hl]; simp))
      have ho := hi.ordered
      rw [hcur] at ho
      have hy := ho.1 y (by rw [hl]; exact mem_top a b y)
      have hstart : h < y.start := by
        simp only [meets, decide_eq_false_iff_not] at hmy
        omega
      rw [hpath, pending, hpend', append_nil]
      refine hits_eq_nil fun z hz => meets_of_start ?_
      have hz' := ho.2.1 z hz
      exact hstart.trans_le (start_le_of_sides (hy.2.1.symm.trans hz'.2.1) hy.1 hz'.1)
    refine ⟨⟨ha', ⟨a, y, b, hcur', hry, hpend''⟩, ?_⟩, ?_⟩
    · rw [hpath, pending, hpend', hcur', ← hl, append_nil]
      exact hL
    · simp only [hcur', hcur, hl, Tree.size]
      omega

lemma prioTreeFirst_spec (hW : 1 < W) (hv : Valid W root) :
    ∃ res, prioTreeFirst W r h root = some res ∧ Answer W r h root (hits r h root.tree) res := by
  unfold prioTreeFirst
  cases htree : root.tree with
  | nil => exact ⟨_, rfl, rfl⟩
  | node l x t =>
    simp only
    split_ifs with hr
    · refine ⟨_, rfl, hits_eq_nil fun z hz => meets_of_last ?_⟩
      have ho := hv.fits.ordered
      rw [htree] at ho
      have := ho.last_le z hz
      omega
    · have ha : At W root ⟨2 ^ (root.indexBits - 1), 0, 0, root.tree, []⟩ :=
        .top (by rw [htree]; simp)
      rw [htree] at ha
      have hstart : Finding W r h root (hits r h (.node l x t))
          ⟨2 ^ (root.indexBits - 1), 0, 0, .node l x t, []⟩ :=
        ⟨ha, ⟨l, x, t, rfl, by omega, fun _ => rfl⟩, by simp [pending]⟩
      exact Pass.run_of_next (firstPass_next hW hv) _ hstart (Nat.lt_succ_self _)

lemma iterate_eq_hits (hW : 1 < W) (hv : Valid W root) {fuel : ℕ}
    (hfuel : 3 * root.tree.size < fuel) :
    iterate W r h fuel root = some (hits r h root.tree) := by
  obtain ⟨res, hfirst, hres⟩ := prioTreeFirst_spec (r := r) (h := h) hW hv
  unfold iterate
  rw [hfirst]
  match res, hres with
  | some none, hres => rw [show hits r h root.tree = [] from hres]
  | some (some iter), ⟨ha, a, y, b, hcur, hhits⟩ =>
    have hlen : (todo r h (.left, iter)).length < fuel := by
      have hle : (hits r h root.tree).length ≤ root.tree.toList.length := length_filter_le _ _
      rw [hhits, length_cons, ← size_eq_length] at hle
      omega
    simp only [hcur, collect_eq hW hv hfuel ha hlen, hhits]

/-- From a fresh iterator `prio_tree_next` returns every stored interval that meets the query once,
nothing else, and then NULL. -/
theorem prioTreeNext_enumerates (hW : 1 < W) {S : Finset Interval} (hr : Reach W root S) (r h : ℕ)
    (hrh : r ≤ h) {fuel : ℕ} (hfuel : 3 * S.card < fuel) :
    ∃ L, iterate W r h fuel root = some L ∧ L.Nodup ∧
      ∀ x, x ∈ L ↔ x ∈ S ∧ ∃ i, x.start ≤ i ∧ i ≤ x.last ∧ r ≤ i ∧ i ≤ h := by
  obtain ⟨hv, hmem⟩ := hr.valid (by omega)
  have hcard : root.tree.size = S.card := by
    rw [size_eq_length, ← toFinset_card_of_nodup hv.fits.nodup]
    congr 1
    ext z
    rw [mem_toFinset, hmem]
  refine ⟨hits r h root.tree, iterate_eq_hits hW hv (by omega), hv.fits.nodup.filter _, fun x => ?_⟩
  unfold hits
  rw [mem_filter, hmem x]
  refine and_congr_right fun _ => ?_
  have hle := x.le
  rw [meets, decide_eq_true_iff]
  constructor
  · rintro ⟨h1, h2⟩
    exact ⟨max x.start r, by omega, by omega, by omega, by omega⟩
  · rintro ⟨i, h1, h2, h3, h4⟩
    omega

theorem prioTreeNext_enumerates_two :
    let x : Interval := ⟨1, 3, by decide⟩
    let y : Interval := ⟨2, 5, by decide⟩
    ∃ root, Reach 64 root {y, x} ∧ ∃ L, iterate 64 4 9 7 root = some L ∧ L.Nodup ∧
      ∀ z, z ∈ L ↔ z ∈ ({y, x} : Finset Interval) ∧ ∃ i, z.start ≤ i ∧ i ≤ z.last ∧ 4 ≤ i ∧ i ≤ 9 :=
  have hreach := Reach.insert (W := 64) ⟨2, 5, by decide⟩
    (.insert ⟨1, 3, by decide⟩ .init (by decide) rfl) (by decide) rfl
  ⟨_, hreach, prioTreeNext_enumerates (by decide) hreach 4 9 (by decide) (by decide)⟩

end LinuxKernel.PrioTree
