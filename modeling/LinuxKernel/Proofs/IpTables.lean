import LinuxKernel.IpTables
import LinuxKernel.Postorder
import Mathlib.Tactic.Ring

/-!
# Packets leave the table

`mark_source_chains` is a depth-first search that keeps its path in the packet counters. If it
accepts, the entries it has left are a postorder of the jumps and fall-throughs from the hook, and
every iteration of `ipt_do_table` lowers a weight of the entry and the jump stack.
-/

namespace LinuxKernel.Netfilter

open Function List

variable {μ τ : Type*}

section

variable (entries : List (Entry μ τ))

/-- From an entry that does not end a chain: to the entry behind it, and to where it jumps. -/
def Edge (pos t : ℕ) : Prop :=
  ∃ e, getEntry entries pos = some e ∧ isEnd e = false ∧ (t = pos + e.nextOffset ∨ jump e = some t)

/-- The counters point back along the path, the start at itself. -/
def Linked (pcnt : ℕ → ℕ) : List ℕ → Prop
  | [] => True
  | [a] => pcnt a = a
  | a :: b :: l => pcnt a = b ∧ Linked pcnt (b :: l)

/-- Each entry on the path was left by its jump, or by the fall-through with its jump done. -/
def Pending (fin : List ℕ) : List ℕ → Prop
  | a :: b :: l => (∃ e, getEntry entries b = some e ∧ isEnd e = false
      ∧ ((a = b + e.nextOffset ∧ ∀ t, jump e = some t → t ∈ fin ∨ t = a)
        ∨ (a ≠ b + e.nextOffset ∧ jump e = some a))) ∧ Pending fin (b :: l)
  | _ => True

variable {entries} {fuel : ℕ} {findCheckEntry : Entry μ τ → Bool}

lemma linked_setPcnt {m : Marks} {pos back : ℕ} : ∀ {l : List ℕ}, pos ∉ l →
    (Linked (m.setPcnt pos back).pcnt l ↔ Linked m.pcnt l)
  | [], _ => Iff.rfl
  | [a], h => by
    have hne : a ≠ pos := fun heq => h (heq ▸ mem_cons_self)
    simp only [Linked, Marks.setPcnt, update_of_ne hne]
  | a :: b :: l, h => by
    have hne : a ≠ pos := fun heq => h (heq ▸ mem_cons_self)
    have ih : Linked (m.setPcnt pos back).pcnt (b :: l) ↔ Linked m.pcnt (b :: l) :=
      linked_setPcnt fun hm => h (mem_cons_of_mem _ hm)
    simp only [Linked, ih]
    simp only [Marks.setPcnt, update_of_ne hne]

lemma Pending.mono {fin fin' : List ℕ} (hsub : ∀ x ∈ fin, x ∈ fin') : ∀ {l : List ℕ},
    Pending entries fin l → Pending entries fin' l
  | [], _ => trivial
  | [_], _ => trivial
  | a :: b :: l, h => by
    obtain ⟨⟨e, he, hend, hcase⟩, hrest⟩ := h
    refine ⟨⟨e, he, hend, ?_⟩, hrest.mono hsub⟩
    rcases hcase with ⟨h1, h2⟩ | h
    · exact .inl ⟨h1, fun t ht => (h2 t ht).imp_left (hsub t)⟩
    · exact .inr h

/-- The marks of a search from `hook`: the entries on the path, and those that are done. -/
structure Marked (entries : List (Entry μ τ)) (hook : ℕ) (m : Marks) (path fin : List ℕ) :
    Prop where
  onPath : ∀ x, m.comefrom x NF_INET_NUMHOOKS = true ↔ x ∈ path
  visited : ∀ x, m.comefrom x hook = true ↔ x ∈ path ∨ x ∈ fin
  later : ∀ x k, hook < k → k < NF_INET_NUMHOOKS → m.comefrom x k = false
  order : Postorder (Edge entries) fin
  nodup : path.Nodup
  entry : ∀ x ∈ fin, ∃ e, getEntry entries x = some e

variable {hook start pos : ℕ} {m : Marks} {path fin : List ℕ}

lemma Marked.setPcnt (h : Marked entries hook m path fin) (pos back : ℕ) :
    Marked entries hook (m.setPcnt pos back) path fin :=
  ⟨h.onPath, h.visited, h.later, h.order, h.nodup, h.entry⟩

lemma Marked.visit (h : Marked entries hook m path fin) (hpos : pos ∉ path) :
    Marked entries hook (m.visit pos hook) (pos :: path) fin where
  onPath x := by
    by_cases hx : x = pos
    · subst hx
      simp [Marks.visit]
    · simp only [Marks.visit, update_of_ne hx, h.onPath, mem_cons, hx, false_or]
  visited x := by
    by_cases hx : x = pos
    · subst hx
      simp [Marks.visit]
    · simp only [Marks.visit, update_of_ne hx, h.visited, mem_cons, hx, false_or]
  later x k hk hk' := by
    by_cases hx : x = pos
    · subst hx
      have h1 : (k == hook) = false := by simpa using hk.ne'
      have h2 : (k == NF_INET_NUMHOOKS) = false := by simpa using hk'.ne
      simp [Marks.visit, h.later x k hk hk', h1, h2]
    · simp only [Marks.visit, update_of_ne hx, h.later x k hk hk']
  order := h.order
  nodup := nodup_cons.2 ⟨hpos, h.nodup⟩
  entry := h.entry

lemma Marked.leave (h : Marked entries hook m (pos :: path) fin) (hhook : hook < NF_INET_NUMHOOKS)
    (hpos : pos ∈ fin) : Marked entries hook (m.leave pos) path fin where
  onPath x := by
    obtain ⟨hnot, -⟩ := nodup_cons.1 h.nodup
    by_cases hx : x = pos
    · subst hx
      have hon : m.comefrom x NF_INET_NUMHOOKS = true := (h.onPath x).2 mem_cons_self
      simp [Marks.leave, hon, hnot]
    · have hon := h.onPath x
      simp only [mem_cons, hx, false_or] at hon
      simp only [Marks.leave, update_of_ne hx, hon]
  visited x := by
    by_cases hx : x = pos
    · subst hx
      have hvis : m.comefrom x hook = true := (h.visited x).2 (.inl mem_cons_self)
      simp [Marks.leave, hhook.ne, hvis, hpos]
    · have hvis := h.visited x
      simp only [mem_cons, hx, false_or] at hvis
      simp only [Marks.leave, update_of_ne hx, hvis]
  later x k hk hk' := by
    by_cases hx : x = pos
    · subst hx
      simp [Marks.leave, hk'.ne, h.later x k hk hk']
    · simp only [Marks.leave, update_of_ne hx, h.later x k hk hk']
  order := h.order
  nodup := (nodup_cons.1 h.nodup).2
  entry := h.entry

lemma Marked.finish (h : Marked entries hook m path fin) (hpos : pos ∈ path) {e : Entry μ τ}
    (he : getEntry entries pos = some e) (hedge : ∀ t, Edge entries pos t → t ∈ fin) :
    Marked entries hook m path (pos :: fin) where
  onPath := h.onPath
  visited x := by
    rw [h.visited x, mem_cons]
    constructor
    · rintro (hx | hx)
      · exact .inl hx
      · exact .inr (.inr hx)
    · rintro (hx | rfl | hx)
      · exact .inl hx
      · exact .inl hpos
      · exact .inr hx
  later := h.later
  order := .cons hedge h.order
  nodup := h.nodup
  entry := by
    rintro x hx
    rcases mem_cons.1 hx with rfl | hx
    · exact ⟨e, he⟩
    · exact h.entry x hx

variable (entries) in
/-- The search stands before an entry, behind the path that leads to it from the start. -/
structure Searching (hook start pos : ℕ) (m : Marks) (path fin : List ℕ) : Prop where
  marked : Marked entries hook m path fin
  linked : pos ∉ path → Linked m.pcnt (pos :: path)
  pending : Pending entries fin (pos :: path)
  start : (pos :: path).getLast? = some start

variable (entries) in
def Searched (hook start : ℕ) (m : Marks) : Prop :=
  ∃ fin, Marked entries hook m [] fin ∧ start ∈ fin

lemma backtrack_spec (hhook : hook < NF_INET_NUMHOOKS) : ∀ (fuel : ℕ) {pos : ℕ} {m : Marks}
    {path fin : List ℕ}, Marked entries hook m (pos :: path) fin → pos ∈ fin →
    Linked m.pcnt (pos :: path) →
    Pending entries fin (pos :: path) → (pos :: path).getLast? = some start →
    match backtrack entries fuel pos m with
    | .start m' => Searched entries hook start m'
    | .moved pos' m' => ∃ path' fin', Searching entries hook start pos' m' path' fin'
    | .stuck => True
  | 0, _, _, _, _, _, _, _, _, _ => trivial
  | fuel + 1, pos, m, [], fin, hm, hpos, hlink, _, hstart => by
    have hback : (m.leave pos).pcnt pos = pos := hlink
    rw [backtrack]
    simp only [hback, if_true]
    cases hstart
    exact ⟨fin, (hm.leave hhook hpos).setPcnt _ _, hpos⟩
  | fuel + 1, pos, m, p :: path, fin, hm, hpos, hlink, hpend, hstart => by
    have hback : (m.leave pos).pcnt pos = p := hlink.1
    obtain ⟨hnot, -⟩ := nodup_cons.1 hm.nodup
    have hne : p ≠ pos := fun heq => hnot (heq ▸ mem_cons_self)
    obtain ⟨⟨e, he, hend, hcase⟩, hpend'⟩ := hpend
    have hm' := (hm.leave hhook hpos).setPcnt pos 0
    have hlink' : Linked ((m.leave pos).setPcnt pos 0).pcnt (p :: path) :=
      (linked_setPcnt hnot).2 hlink.2
    have hstart' : (p :: path).getLast? = some start := by rwa [getLast?_cons_cons] at hstart
    rw [backtrack]
    simp only [hback, if_neg hne, he]
    rcases hcase with ⟨hfall, hjump⟩ | ⟨hnofall, hjump⟩
    · -- the fall-through is done, and so is the jump
      rw [if_pos hfall]
      have hdone : ∀ t, Edge entries p t → t ∈ fin := by
        rintro t ⟨e', he', -, ht⟩
        obtain rfl : e = e' := Option.some.inj (he.symm.trans he')
        rcases ht with rfl | ht
        · rwa [← hfall]
        · rcases hjump t ht with h | rfl
          · exact h
          · exact hpos
      exact backtrack_spec hhook fuel (hm'.finish mem_cons_self he hdone) mem_cons_self hlink'
        (hpend'.mono fun x hx => mem_cons_of_mem _ hx) hstart'
    · rw [if_neg hnofall]
      refine ⟨p :: path, fin, hm'.setPcnt _ _, fun hnew => ?_,
        ⟨⟨e, he, hend, .inl ⟨rfl, ?_⟩⟩, hpend'⟩, ?_⟩
      · refine ⟨?_, (linked_setPcnt hnew).2 hlink'⟩
        simp [Marks.setPcnt]
      · intro t ht
        rw [hjump] at ht
        cases ht
        exact .inl hpos
      · rwa [getLast?_cons_cons]

lemma markLoop_spec {info : TableInfo μ τ} (hhook : hook < NF_INET_NUMHOOKS) :
    ∀ {fuel pos : ℕ} {m m' : Marks} {path fin : List ℕ},
      Searching info.entries hook start pos m path fin → markLoop info hook fuel pos m = some m' →
      Searched info.entries hook start m'
  | 0, _, _, _, _, _, _, h => by cases h
  | fuel + 1, pos, m, m', path, fin, hs, h => by
    rw [markLoop] at h
    cases he : getEntry info.entries pos with
    | none => simp [he] at h
    | some e =>
      simp only [he] at h
      by_cases hon : m.comefrom pos NF_INET_NUMHOOKS = true
      · rw [if_pos hon] at h
        cases h
      rw [if_neg hon] at h
      have hnot : pos ∉ path := fun hmem => hon ((hs.marked.onPath pos).2 hmem)
      have hm := hs.marked.visit hnot
      have hlink : Linked (m.visit pos hook).pcnt (pos :: path) := hs.linked hnot
      by_cases hback : (isEnd e || m.comefrom pos hook) = true
      · rw [if_pos hback] at h
        split_ifs at h
        -- the entry is done: it ends a chain, or the search has been there
        obtain ⟨fin', hm', hpos, hsub⟩ : ∃ fin',
            Marked info.entries hook (m.visit pos hook) (pos :: path) fin'
            ∧ pos ∈ fin' ∧ ∀ x ∈ fin, x ∈ fin' := by
          by_cases hvis : m.comefrom pos hook = true
          · exact ⟨fin, hm, ((hs.marked.visited pos).1 hvis).resolve_left hnot, fun _ hx => hx⟩
          refine ⟨pos :: fin, hm.finish mem_cons_self he ?_, mem_cons_self,
            fun x hx => mem_cons_of_mem _ hx⟩
          rintro t ⟨e', he', hend, -⟩
          obtain rfl : e = e' := Option.some.inj (he.symm.trans he')
          simp [hend, hvis] at hback
        have hspec := backtrack_spec hhook fuel hm' hpos hlink (hs.pending.mono hsub) hs.start
        revert h hspec
        cases backtrack info.entries fuel pos (m.visit pos hook) with
        | start m₁ =>
          intro h hspec
          cases h
          exact hspec
        | moved pos₁ m₁ =>
          rintro h ⟨path', fin', hs'⟩
          exact markLoop_spec hhook hs' h
        | stuck =>
          intro h
          cases h
      · rw [if_neg hback] at h
        have hend : isEnd e = false := by
          cases hcase : isEnd e
          · rfl
          · simp [hcase] at hback
        have hnext : ∀ newpos,
            ((newpos = pos + e.nextOffset ∧ ∀ t, jump e = some t → t ∈ fin ∨ t = newpos)
            ∨ (newpos ≠ pos + e.nextOffset ∧ jump e = some newpos)) →
            Searching info.entries hook start newpos ((m.visit pos hook).setPcnt newpos pos)
            (pos :: path) fin := by
          intro newpos hcase
          refine ⟨hm.setPcnt _ _,
            fun hnew => ⟨by simp [Marks.setPcnt], (linked_setPcnt hnew).2 hlink⟩,
            ⟨⟨e, he, hend, hcase⟩, hs.pending⟩, ?_⟩
          rw [getLast?_cons_cons]
          exact hs.start
        cases hj : jump e with
        | some newpos =>
          simp only [hj] at h
          split_ifs at h
          refine markLoop_spec hhook (hnext newpos ?_) h
          by_cases heq : newpos = pos + e.nextOffset
          · refine .inl ⟨heq, fun t ht => Or.inr ?_⟩
            rw [hj] at ht
            exact (Option.some.inj ht).symm
          · exact .inr ⟨heq, hj⟩
        | none =>
          simp only [hj] at h
          refine markLoop_spec hhook (hnext _ (.inl ⟨rfl, fun t ht => ?_⟩)) h
          rw [hj] at ht
          cases ht

end

section

variable {info : TableInfo μ τ} {validHooks : ℕ → Bool}

variable {repl : Replace μ τ}

/-- No entry is on a path, and the search from the hook and from later ones has not begun. -/
def Clear (hook : ℕ) (m : Marks) : Prop :=
  (∀ x, m.comefrom x NF_INET_NUMHOOKS = false)
    ∧ ∀ x k, hook ≤ k → k < NF_INET_NUMHOOKS → m.comefrom x k = false

/-- A hook whose chains the search has left. -/
def Ordered (info : TableInfo μ τ) (hook : ℕ) : Prop :=
  ∃ pos fin, info.hookEntry hook = some pos ∧ pos ∈ fin ∧ Postorder (Edge info.entries) fin
    ∧ ∀ x ∈ fin, ∃ e, getEntry info.entries x = some e

lemma Clear.searching {hook : ℕ} {m : Marks} (h : Clear hook m) (hhook : hook < NF_INET_NUMHOOKS)
    (entries : List (Entry μ τ)) (pos : ℕ) :
    Searching entries hook pos pos (m.setPcnt pos pos) [] [] where
  marked :=
    { onPath := fun x => by simp [Marks.setPcnt, h.1 x]
      visited := fun x => by simp [Marks.setPcnt, h.2 x hook le_rfl hhook]
      later := fun x k hk hk' => h.2 x k hk.le hk'
      order := .nil
      nodup := nodup_nil
      entry := by simp }
  linked _ := by simp [Linked, Marks.setPcnt]
  pending := trivial
  start := rfl

lemma markHooks_spec : ∀ {hooks : List ℕ} {m m' : Marks}, hooks.Pairwise (· < ·) →
    (∀ h ∈ hooks, h < NF_INET_NUMHOOKS ∧ Clear h m) →
    markHooks info validHooks fuel hooks m = some m' →
    ∀ h ∈ hooks, validHooks h = true → Ordered info h
  | [], _, _, _, _, _, h, hh, _ => by cases hh
  | hook :: hooks, m, m', hsorted, hclear, hmark, h, hh, hvalid => by
    obtain ⟨hlt, hsorted⟩ := pairwise_cons.1 hsorted
    obtain ⟨hhook, hm⟩ := hclear hook mem_cons_self
    rw [markHooks] at hmark
    by_cases hv : validHooks hook = true
    · rw [if_neg (by simp [hv])] at hmark
      cases hpos : info.hookEntry hook with
      | none => simp [hpos] at hmark
      | some pos =>
        simp only [hpos] at hmark
        cases hloop : markLoop info hook fuel pos (m.setPcnt pos pos) with
        | none => simp [hloop] at hmark
        | some m₁ =>
          simp only [hloop] at hmark
          obtain ⟨fin, hfin, hstart⟩ := markLoop_spec hhook (hm.searching hhook _ pos) hloop
          rcases mem_cons.1 hh with rfl | hh
          · exact ⟨pos, fin, hpos, hstart, hfin.order, hfin.entry⟩
          refine markHooks_spec hsorted
            (fun k hk => ⟨(hclear k (mem_cons_of_mem _ hk)).1, ?_, ?_⟩)
            hmark h hh hvalid
          · intro x
            cases hx : m₁.comefrom x NF_INET_NUMHOOKS
            · rfl
            · exact absurd ((hfin.onPath x).1 hx) (not_mem_nil)
          · intro x j hj hj'
            exact hfin.later x j (lt_of_lt_of_le (hlt k hk) hj) hj'
    · rw [if_pos (by simpa using hv)] at hmark
      rcases mem_cons.1 hh with rfl | hh
      · exact absurd hvalid hv
      · exact markHooks_spec hsorted (fun k hk => hclear k (mem_cons_of_mem _ hk)) hmark h hh hvalid

lemma markSourceChains_spec (h : markSourceChains info validHooks fuel = true)
    {hook : ℕ}
    (hhook : hook < NF_INET_NUMHOOKS) (hvalid : validHooks hook = true) : Ordered info hook := by
  obtain ⟨m', hm'⟩ := Option.isSome_iff_exists.1 h
  refine markHooks_spec pairwise_lt_range (fun k hk => ⟨mem_range.1 hk, ?_⟩) hm' hook
    (mem_range.2 hhook) hvalid
  exact ⟨fun _ => rfl, fun _ _ _ _ => rfl⟩

lemma checkEntries_spec : ∀ {es : List (Entry μ τ)} {offset : ℕ}
    {info info' : TableInfo μ τ}, checkEntries repl offset es info = some info' →
    info'.entries = info.entries ∧ ∀ h < NF_INET_NUMHOOKS, ∀ u, info'.underflow h = some u →
      info.underflow h = some u
        ∨ ∃ e, offset ≤ u ∧ getEntry es (u - offset) = some e ∧ checkUnderflow e = true
  | [], offset, info, info', h => by
    rw [checkEntries] at h
    split_ifs at h
    cases h
    exact ⟨rfl, fun h _ u hu => Or.inl hu⟩
  | e :: es, offset, info, info', h => by
    rw [checkEntries] at h
    generalize (if isError e then info.stacksize + 1 else info.stacksize) = stacksize at h
    split_ifs at h with h1 h2 h3
    obtain ⟨hentries, hunder⟩ := checkEntries_spec h
    refine ⟨hentries, fun k hk u hu => ?_⟩
    unfold sizeofEntry sizeofTarget at h2
    rcases hunder k hk u hu with hu | ⟨e', hle, hget, hcheck⟩
    · simp only at hu
      split_ifs at hu with hat
      · obtain rfl : offset = u := Option.some.inj hu
        rw [Bool.and_eq_true] at hat
        refine .inr ⟨e, le_rfl, ?_, ?_⟩
        · rw [Nat.sub_self, getEntry, if_pos rfl]
        · cases hcheck : checkUnderflow e
          · refine absurd (any_eq_true.2 ⟨k, mem_range.2 hk, ?_⟩) h3
            simp [hat.1, hat.2, hcheck]
          · rfl
      · exact .inl hu
    · refine .inr ⟨e', by omega, ?_, hcheck⟩
      rw [getEntry, if_neg (by omega), if_neg (by omega), ← hget]
      congr 1
      omega

lemma translateTable_some (h : translateTable findCheckEntry fuel repl = some info) :
    checkEntries repl 0 repl.entries
        ⟨repl.entries, repl.size, fun _ => none, fun _ => none, 0⟩ = some info
      ∧ (¬ hooks.any fun k =>
        repl.validHooks k && ((info.hookEntry k).isNone || (info.underflow k).isNone))
      ∧ markSourceChains info repl.validHooks fuel = true := by
  rw [translateTable] at h
  cases hcheck : checkEntries repl 0 repl.entries
      ⟨repl.entries, repl.size, fun _ => none, fun _ => none, 0⟩ with
  | none => simp [hcheck] at h
  | some info₁ =>
    simp only [hcheck] at h
    split_ifs at h with h1 h2 h3 h4
    cases h
    exact ⟨rfl, h2, by simpa using h3⟩

lemma translateTable_spec (h : translateTable findCheckEntry fuel repl = some info) {hook : ℕ}
    (hhook : hook < NF_INET_NUMHOOKS)
    (hvalid : repl.validHooks hook = true) :
    Ordered info hook ∧ ∃ u e, info.underflow hook = some u ∧ getEntry info.entries u = some e
      ∧ checkUnderflow e = true := by
  obtain ⟨hcheck, hset, hmark⟩ := translateTable_some h
  obtain ⟨hentries, hunder⟩ := checkEntries_spec hcheck
  refine ⟨markSourceChains_spec hmark hhook hvalid, ?_⟩
  cases hu : info.underflow hook with
  | none =>
    refine absurd (any_eq_true.2 ⟨hook, mem_range.2 hhook, ?_⟩) hset
    simp [hvalid, hu]
  | some u =>
    rcases hunder hook hhook u hu with hnone | ⟨e, -, hget, he⟩
    · cases hnone
    · exact ⟨u, e, rfl, by rwa [hentries], he⟩

end

section

variable {info : TableInfo μ τ} {env : Env μ τ} {hook : ℕ}

lemma ipPacketMatch_unconditional {ip : IptIp} (h : unconditional ip = true) (packet : Packet) :
    ipPacketMatch packet ip = true := by
  obtain rfl : ip = uncond := by simpa [unconditional] using h
  simp [ipPacketMatch, fwinv, uncond]

lemma isEnd_matches {e : Entry μ τ} (h : isEnd e = true) (hotdrop : Bool) :
    ipPacketMatch env.packet e.ip = true ∧ runMatches env e.ematches hotdrop = (true, hotdrop) := by
  unfold isEnd at h
  cases ht : e.target with
  | standard v =>
    simp only [ht, Bool.and_eq_true, List.isEmpty_iff] at h
    refine ⟨ipPacketMatch_unconditional h.2 _, ?_⟩
    rw [h.1.1]
    rfl
  | error => simp [ht] at h
  | function data => simp [ht] at h

variable (info) in
def behind (pos : ℕ) : ℕ :=
  match getEntry info.entries pos with
  | none => pos
  | some e => pos + e.nextOffset

variable (info) in
/-- A jump counts more than the entry it leads to and the one it comes back to. -/
def weight (fin : List ℕ) (s : State) : ℕ :=
  3 ^ rank fin s.pos + (s.jumpstack.map fun back => 3 ^ rank fin (behind info back)).sum

variable (info) in
/-- The entry is one of those the search has left, and so are those behind the jumps. -/
structure Inside (fin : List ℕ) (s : State) : Prop where
  pos : s.pos ∈ fin
  stack : ∀ back ∈ s.jumpstack, ∃ e, getEntry info.entries back = some e ∧ back + e.nextOffset ∈ fin

lemma two_pow_lt {a b r : ℕ} (ha : a < r) (hb : b < r) : 3 ^ a + 3 ^ b < 3 ^ r := by
  have h1 : 3 ^ a ≤ 3 ^ (r - 1) := Nat.pow_le_pow_right (by omega) (by omega)
  have h2 : 3 ^ b ≤ 3 ^ (r - 1) := Nat.pow_le_pow_right (by omega) (by omega)
  have h3 : 3 ^ r = 3 * 3 ^ (r - 1) := by
    rw [← Nat.pow_succ']
    congr 1
    omega
  have h4 : 0 < 3 ^ (r - 1) := Nat.pow_pos (by omega)
  omega

/-- What one iteration may do: a verdict, an entry of less weight, or the underflow entry. -/
def Progress (info : TableInfo μ τ) (hook : ℕ) (fin : List ℕ) (s : State) : Step → Prop
  | .stop _ _ => True
  | .next s' => (Inside info fin s' ∧ weight info fin s' < weight info fin s)
      ∨ info.underflow hook = some s'.pos
  | .fault => False

variable {fin : List ℕ} {s : State} {e : Entry μ τ}

lemma Inside.edge (h : Inside info fin s) (horder : Postorder (Edge info.entries) fin) {t : ℕ}
    (hedge : Edge info.entries s.pos t) (hotdrop : Bool) (iteration : ℕ) :
    Progress info hook fin s (.next ⟨t, s.jumpstack, hotdrop, iteration⟩) := by
  obtain ⟨hmem, hrank⟩ := horder.edge_lt h.pos hedge
  refine .inl ⟨⟨hmem, h.stack⟩, ?_⟩
  exact Nat.add_lt_add_right (Nat.pow_lt_pow_right (by omega) hrank) _

lemma runTarget_progress (h : Inside info fin s) (horder : Postorder (Edge info.entries) fin)
    (he : getEntry info.entries s.pos = some e) (hunder : (info.underflow hook).isSome)
    (hotdrop : Bool) (iteration : ℕ) :
    Progress info hook fin s
    (runTarget info env hook e ⟨s.pos, s.jumpstack, hotdrop, iteration⟩) := by
  have hfall : isEnd e = false → Edge info.entries s.pos (s.pos + e.nextOffset) := fun hend =>
    ⟨e, he, hend, .inl rfl⟩
  rw [runTarget]
  cases ht : e.target with
  | error => trivial
  | function data =>
    have hend : isEnd e = false := by simp [isEnd, ht]
    dsimp only
    cases (env.targetFn iteration data).1 with
    | none => exact h.edge horder (hfall hend) _ _
    | some verdict => trivial
  | standard v =>
    dsimp only
    by_cases hneg : v < 0
    · rw [if_pos hneg]
      by_cases hret : v ≠ IPT_RETURN
      · rw [if_pos hret]
        trivial
      rw [if_neg hret]
      cases hst : s.jumpstack with
      | nil =>
        obtain ⟨u, hu⟩ := Option.isSome_iff_exists.1 hunder
        simp only [hu]
        exact .inr hu
      | cons back jumpstack =>
        obtain ⟨e', he', hmem⟩ := h.stack back (hst ▸ mem_cons_self)
        simp only [he']
        refine .inl ⟨⟨hmem, fun b hb => h.stack b (hst ▸ mem_cons_of_mem _ hb)⟩, ?_⟩
        have hbehind : behind info back = back + e'.nextOffset := by rw [behind, he']
        have hpos : 0 < 3 ^ rank fin s.pos := Nat.pow_pos (by omega)
        rw [weight, weight, hst, map_cons, sum_cons, hbehind]
        dsimp only
        omega
    · rw [if_neg hneg]
      have hend : isEnd e = false := by simp [isEnd, ht, hneg]
      have hjump : Edge info.entries s.pos v.toNat :=
        ⟨e, he, hend, .inr (by simp [jump, ht, not_lt.1 hneg])⟩
      split_ifs with hpush hfull
      · trivial
      · obtain ⟨h1, h2⟩ := horder.edge_lt h.pos hjump
        obtain ⟨h3, h4⟩ := horder.edge_lt h.pos (hfall hend)
        refine .inl ⟨⟨h1, fun b hb => ?_⟩, ?_⟩
        · rcases mem_cons.1 hb with rfl | hb
          · exact ⟨e, he, h3⟩
          · exact h.stack b hb
        have hbehind : behind info s.pos = s.pos + e.nextOffset := by rw [behind, he]
        have := two_pow_lt h2 h4
        rw [weight, weight, map_cons, sum_cons, hbehind]
        dsimp only
        omega
      · exact h.edge horder hjump _ _

lemma iptStep_progress (h : Inside info fin s) (horder : Postorder (Edge info.entries) fin)
    (hentry : ∀ x ∈ fin, ∃ e, getEntry info.entries x = some e)
    (hunder : (info.underflow hook).isSome) :
    Progress info hook fin s (iptStep info env hook s) := by
  obtain ⟨e, he⟩ := hentry s.pos h.pos
  have hfall : isEnd e = false → Edge info.entries s.pos (s.pos + e.nextOffset) := fun hend =>
    ⟨e, he, hend, .inl rfl⟩
  rw [iptStep]
  simp only [he]
  by_cases hip : ipPacketMatch env.packet e.ip = true
  · rw [if_neg (by simp [hip])]
    by_cases hmatch : (runMatches env e.ematches s.hotdrop).1 = true
    · rw [if_neg (by simp [hmatch])]
      exact runTarget_progress h horder he hunder _ _
    rw [if_pos (by simpa using hmatch)]
    refine h.edge horder (hfall ?_) _ _
    cases hend : isEnd e
    · rfl
    · rw [(isEnd_matches hend s.hotdrop).2] at hmatch
      exact absurd rfl hmatch
  · rw [if_pos (by simpa using hip)]
    refine h.edge horder (hfall ?_) _ _
    cases hend : isEnd e
    · rfl
    · exact absurd (isEnd_matches hend s.hotdrop).1 hip

lemma iptStep_underflow (he : getEntry info.entries s.pos = some e)
    (hcheck : checkUnderflow e = true)
    (hmatches : e.ematches = []) :
    ∃ verdict, iptStep info env hook s = .stop verdict s.hotdrop := by
  unfold checkUnderflow at hcheck
  split_ifs at hcheck with hip
  cases ht : e.target with
  | error => simp [ht] at hcheck
  | function data => simp [ht] at hcheck
  | standard v =>
    have hverdict : -v - 1 = 0 ∨ -v - 1 = 1 := by
      simpa only [ht, NF_DROP, NF_ACCEPT, Bool.or_eq_true, decide_eq_true_eq, Nat.cast_zero,
        Nat.cast_one]
        using hcheck
    have hmatch : ipPacketMatch env.packet e.ip = true :=
      ipPacketMatch_unconditional (by simpa using hip) env.packet
    refine ⟨(-v).toNat - 1, ?_⟩
    rw [iptStep]
    simp only [he, hmatch, hmatches, runMatches, Bool.not_true, Bool.false_eq_true, if_false,
      runTarget, ht]
    rw [if_pos (by omega), if_pos (by unfold IPT_RETURN; omega)]

lemma iptLoop_terminates (horder : Postorder (Edge info.entries) fin)
    (hentry : ∀ x ∈ fin, ∃ e, getEntry info.entries x = some e) {u : ℕ} {e : Entry μ τ}
    (hu : info.underflow hook = some u) (he : getEntry info.entries u = some e)
    (hcheck : checkUnderflow e = true) (hmatches : e.ematches = []) :
    ∀ (n : ℕ) {s : State}, Inside info fin s → weight info fin s < n →
      ∃ fuel verdict, iptLoop info env hook fuel s = some (some verdict)
  | 0, _, _, hlt => by omega
  | n + 1, s, h, hlt => by
    have hstep : Progress info hook fin s (iptStep info env hook s) :=
      iptStep_progress h horder hentry (by rw [hu]; rfl)
    cases hs : iptStep info env hook s with
    | fault => simp [hs, Progress] at hstep
    | stop verdict hotdrop => exact ⟨1, _, by rw [iptLoop, hs]⟩
    | next s' =>
      rw [hs] at hstep
      by_cases hhot : s'.hotdrop = true
      · exact ⟨1, NF_DROP, by simp only [iptLoop, hs, hhot, if_true]⟩
      rcases hstep with ⟨hin, hw⟩ | hunder
      · obtain ⟨fuel, verdict, hloop⟩ :=
          iptLoop_terminates horder hentry hu he hcheck hmatches n hin (by omega)
        exact ⟨fuel + 1, verdict, by rw [iptLoop]; simp only [hs, if_neg hhot, hloop]⟩
      obtain rfl : u = s'.pos := Option.some.inj (hu.symm.trans hunder)
      have hstop : ∃ verdict, iptStep info env hook s' = .stop verdict s'.hotdrop :=
        iptStep_underflow he hcheck hmatches
      obtain ⟨verdict, hstop⟩ := hstop
      exact ⟨2, verdict, by rw [iptLoop]; simp only [hs, if_neg hhot, iptLoop, hstop]⟩

lemma iptDoTable_ordered (ho : Ordered info hook) {u : ℕ} {e : Entry μ τ}
    (hu : info.underflow hook = some u) (he : getEntry info.entries u = some e)
    (hcheck : checkUnderflow e = true) (hmatches : e.ematches = []) (env : Env μ τ) :
    ∃ fuel verdict, iptDoTable info env hook fuel = some (some verdict) := by
  obtain ⟨pos, fin, hpos, hmem, horder, hentry⟩ := ho
  have hin : Inside info fin ⟨pos, [], false, 0⟩ := ⟨hmem, by simp⟩
  have hloop : ∃ fuel verdict,
      iptLoop info env hook fuel ⟨pos, [], false, 0⟩ = some (some verdict) :=
    iptLoop_terminates horder hentry hu he hcheck hmatches _ hin (Nat.lt_succ_self _)
  obtain ⟨fuel, verdict, hloop⟩ := hloop
  exact ⟨fuel, verdict, by rw [iptDoTable]; simp only [hpos, hloop]⟩

lemma translateTable_entries {repl : Replace μ τ}
    (h : translateTable findCheckEntry fuel repl = some info) : info.entries = repl.entries :=
  (checkEntries_spec (translateTable_some h).1).1

lemma getEntry_mem : ∀ {es : List (Entry μ τ)} {offset : ℕ}, getEntry es offset = some e → e ∈ es
  | [], _, h => by cases h
  | e' :: es, offset, h => by
    rw [getEntry] at h
    split_ifs at h
    · cases h
      exact mem_cons_self
    · exact mem_cons_of_mem _ (getEntry_mem h)

def jumpRules : Replace Unit Unit where
  entries := [⟨uncond, [], .standard 304, 152⟩, ⟨uncond, [], .standard (-2), 152⟩,
    ⟨uncond, [], .standard IPT_RETURN, 152⟩]
  size := 456
  numEntries := 3
  validHooks h := h == 1
  hookEntry _ := 0
  underflow _ := 152

def testEnv : Env Unit Unit where
  packet := ⟨0, 0, 0, 0, 0, false⟩
  matchFn _ := (false, false)
  targetFn _ _ := (none, false)

def loopRules : Replace Unit Unit where
  entries := [⟨uncond, [()], .standard (-2), 192⟩, ⟨uncond, [], .standard IPT_RETURN, 152⟩]
  size := 344
  numEntries := 2
  validHooks h := h == 1
  hookEntry _ := 0
  underflow _ := 0

lemma loopRules_loop {info : TableInfo Unit Unit} (hentries : info.entries = loopRules.entries)
    (hunder : info.underflow 1 = some 0) : ∀ fuel iteration,
    iptLoop info testEnv 1 fuel ⟨0, [], false, iteration⟩ = none
      ∧ iptLoop info testEnv 1 fuel ⟨192, [], false, iteration⟩ = none
  | 0, _ => ⟨rfl, rfl⟩
  | fuel + 1, iteration => by
    have hpolicy : iptStep info testEnv 1 ⟨0, [], false, iteration⟩
        = .next ⟨192, [], false, iteration + 1⟩ := by
      rw [iptStep, hentries]
      rfl
    have hreturn : iptStep info testEnv 1 ⟨192, [], false, iteration⟩
        = .next ⟨0, [], false, iteration + 1⟩ := by
      have hget : getEntry info.entries 192 = some ⟨uncond, [], .standard IPT_RETURN, 152⟩ := by
        simp [hentries, loopRules, getEntry]
      have hmatch : ipPacketMatch testEnv.packet uncond = true :=
        ipPacketMatch_unconditional (by simp [unconditional]) _
      rw [iptStep]
      simp [hget, hmatch, runMatches, runTarget, hunder, IPT_RETURN]
    obtain ⟨h1, h2⟩ := loopRules_loop hentries hunder fuel (iteration + 1)
    refine ⟨?_, ?_⟩
    · rw [iptLoop, hpolicy]
      exact h2
    · rw [iptLoop, hreturn]
      exact h1

end

end LinuxKernel.Netfilter
