import LinuxKernel.Filter

/-!
# What an accepted filter can do

An instruction that `sk_chk_filter` lets through ends the run or moves on to a later one, and the
last is a `RET`. The scratch words are not initialised: two runs with different ones agree until one
is loaded that no instruction has stored to.
-/

namespace LinuxKernel.Net

variable {m : Machine} {skb : SkBuff} {filter : List SockFilter} {fentry : SockFilter}
  {s : RunState} {flen pc : ℕ} {stop : Stop} {A X : BitVec 32}

section

def Stop.Clean : Stop → Prop
  | .ret _ | .drop => True
  | _ => False

/-- What an instruction at `pc` of an accepted program comes to. -/
def Forward (flen : ℕ) (pc : ℤ) : Outcome → Prop
  | .again s => pc < s.pc ∧ s.pc < flen
  | .leave stop => stop.Clean

lemma decode_value {code : BitVec 16} {c : Code} (h : decode code = some c) :
    c.value = code.toNat := by
  have hf := List.find?_some h
  simpa using hf

lemma Code.ret_of_class : ∀ c : Code, bpfClass c.value = bpfRet → ∃ rval, c = .ret rval
  | .ret rval, _ => ⟨rval, rfl⟩
  | .st, h | .stx, h => by cases h
  | .ld size mode, h | .ldx size mode, h => by cases size <;> cases mode <;> cases h
  | .alu op src, h | .jmp op src, h => by cases op <;> cases src <;> cases h
  | .misc op, h => by cases op <;> cases h

lemma nlaFind_returns (mem : ℤ → BitVec 8) (head len attrtype : ℤ) :
    ∃ r, nlaFind m mem head len attrtype = some r := by
  have hstep : ∀ s : ℤ × ℤ, True → (nlaFindPass m mem attrtype s).Next (fun _ => True)
      (fun _ => True) (fun s => s.2.toNat) s.2.toNat := by
    rintro ⟨nla, rem⟩ -
    simp only [nlaFindPass]
    by_cases hok : nlaOk m mem nla rem = true
    · rw [if_pos hok]
      split_ifs
      · trivial
      · simp only [nlaOk, Bool.and_eq_true, decide_eq_true_eq] at hok
        refine ⟨trivial, ?_⟩
        simp only [nlaAlign]
        omega
    · rw [if_neg hok]
      trivial
  obtain ⟨r, hr, -⟩ := Pass.run_of_next hstep (len.toNat + 1) (s := (head, len)) trivial
    (by simp only; omega)
  exact ⟨r, hr⟩

lemma nlaOffset_ok {r : Option (Option ℤ)} (hr : ∃ r', r = some r') :
    ∃ A, nlaOffset r = .ok A := by
  obtain ⟨r, rfl⟩ := hr
  cases r with
  | none => exact ⟨_, rfl⟩
  | some nla => exact ⟨_, rfl⟩

lemma adNlattr_drop (h : adNlattr m skb A X = .error stop) :
    stop = .drop := by
  obtain ⟨A', hA⟩ := nlaOffset_ok (nlaFind_returns skb.mem A.toNat (skb.len - A).toInt X.toInt)
  unfold adNlattr at h
  rw [hA] at h
  split_ifs at h <;> simp_all

lemma adNlattrNest_drop
    (h : adNlattrNest m skb A X = .error stop) : stop = .drop := by
  obtain ⟨A', hA⟩ := nlaOffset_ok (nlaFind_returns skb.mem (A.toNat + 4)
    (nlaLen m skb.mem A.toNat - 4) X.toInt)
  unfold adNlattrNest nlaFindNested at h
  rw [hA] at h
  split_ifs at h <;> simp_all

lemma adDev_drop {field : NetDevice → BitVec 32}
    (h : adDev skb field = .error stop) : stop = .drop := by
  unfold adDev at h
  split at h <;> simp_all

lemma ancillary_drop {k : ℤ}
    (h : ancillary m skb A X k = .error stop) : stop = .drop := by
  unfold ancillary at h
  split at h
  case h_3 => exact adDev_drop h
  case h_6 => exact adDev_drop h
  case h_7 => exact adNlattr_drop h
  case h_8 => exact adNlattrNest_drop h
  all_goals simp_all

lemma load_clean {k : BitVec 32} {size : Size}
    (h : load m skb A X size k = .error stop) : stop.Clean := by
  unfold load at h
  split at h
  · cases h
  · rw [ancillary_drop h]
    trivial

variable (hnext : s.pc + 1 < flen)
include hnext

lemma next_forward (A X : BitVec 32) (mem : Fin bpfMemwords → BitVec 32) :
    Forward flen s.pc (next ⟨A, X, mem, s.pc⟩) :=
  ⟨by simp only; omega, hnext⟩

lemma setA_forward (A : BitVec 32) : Forward flen s.pc (setA s A) := next_forward hnext _ _ _

lemma setX_forward (X : BitVec 32) : Forward flen s.pc (setX s X) := next_forward hnext _ _ _

lemma putA_forward {r : Except Stop (BitVec 32)} (hr : ∀ stop, r = .error stop → stop.Clean) :
    Forward flen s.pc (putA s r) := by
  cases r with
  | ok A => exact setA_forward hnext A
  | error stop => exact hr stop rfl

omit hnext in
lemma atMem_forward {k : BitVec 32} (hk : k.toNat < bpfMemwords) {f : Fin bpfMemwords → Outcome}
    (hf : ∀ i, Forward flen s.pc (f i)) : Forward flen s.pc (atMem k f) := by
  rw [atMem, dif_pos hk]
  exact hf _

omit hnext in
lemma branch_forward (hpc : s.pc = pc) (cond : Bool)
    (h : pc + fentry.jt.toNat + 1 < flen ∧ pc + fentry.jf.toNat + 1 < flen) :
    Forward flen s.pc (branch s fentry cond) := by
  cases cond
  · exact ⟨by simp only; split_ifs <;> omega, by simp only; split_ifs <;> omega⟩
  · exact ⟨by simp only; split_ifs <;> omega, by simp only; split_ifs <;> omega⟩

omit hnext in
lemma ja_forward (hpc : s.pc = pc) (hlen : flen ≤ bpfMaxinsns)
    (h : fentry.k.toNat < flen - pc - 1) :
    Forward flen s.pc (next ⟨s.A, s.X, s.mem, (s.pc + fentry.k.toNat).bmod (2 ^ 32)⟩) := by
  have hb : (s.pc + fentry.k.toNat).bmod (2 ^ 32) = s.pc + fentry.k.toNat := by
    refine Int.bmod_eq_of_le ?_ ?_ <;> norm_num <;> unfold bpfMaxinsns at hlen <;> omega
  rw [hb]
  exact ⟨by simp only; omega, by simp only; omega⟩

omit hnext in
lemma exec_forward (hpc : s.pc = pc) (hlen : flen ≤ bpfMaxinsns)
    (hchk : chkInsn flen pc fentry = true)
    (hlast : pc + 1 < flen ∨ ∃ rval, decode fentry.code = some (.ret rval)) :
    Forward flen s.pc (exec m skb s fentry) := by
  have hnext : (∀ rval, decode fentry.code ≠ some (.ret rval)) → s.pc + 1 < flen := by
    intro hne
    rcases hlast with h | ⟨rval, h⟩
    · omega
    · exact absurd h (hne rval)
  unfold chkInsn at hchk
  unfold exec
  cases hd : decode fentry.code with
  | none => simp [hd] at hchk
  | some c =>
    rw [hd] at hchk hnext
    match c with
    | .ret rval => cases rval <;> trivial
    | .misc op =>
      have hn := hnext (by simp)
      cases op
      · exact setX_forward hn _
      · exact setA_forward hn _
    | .st | .stx =>
      exact atMem_forward (by simpa using hchk) fun _ => next_forward (hnext (by simp)) _ _ _
    | .alu op src =>
      have hn := hnext (by simp)
      cases op <;> cases src
      case div.x =>
        simp only
        split_ifs
        · trivial
        · exact setA_forward hn _
      case div.k =>
        simp only [ne_eq, decide_not, Bool.not_eq_true', decide_eq_false_iff_not] at hchk
        simp only [if_neg hchk]
        exact setA_forward hn _
      case neg.x => simp at hchk
      all_goals exact setA_forward hn _
    | .jmp op src =>
      cases op <;> cases src
      case ja.k => exact ja_forward hpc hlen (by simpa using hchk)
      case ja.x => simp at hchk
      all_goals exact branch_forward hpc _ (by simpa using hchk)
    | .ld size mode =>
      have hn := hnext (by simp)
      cases mode
      case abs => cases size <;> exact putA_forward hn fun _ => load_clean
      case ind => cases size <;> exact putA_forward hn fun _ => load_clean
      all_goals cases size <;> first | exact setA_forward hn _ | simp at hchk
      exact atMem_forward hchk fun _ => setA_forward hn _
    | .ldx size mode =>
      have hn := hnext (by simp)
      cases size <;> cases mode
      case b.msh =>
        simp only
        split
        · exact setX_forward hn _
        · trivial
      all_goals first | exact setX_forward hn _ | simp at hchk
      exact atMem_forward hchk fun _ => setX_forward hn _

end

lemma chkLoop_get : ∀ {l : List SockFilter} {pc i : ℕ} {ftest : SockFilter},
    chkLoop flen pc l = true → l[i]? = some ftest → chkInsn flen (pc + i) ftest = true
  | ftest :: rest, pc, 0, _, h, hi => by
    obtain rfl := Option.some.inj hi
    rw [chkLoop, Bool.and_eq_true] at h
    exact h.1
  | _ :: rest, pc, i + 1, ftest, h, hi => by
    rw [chkLoop, Bool.and_eq_true] at h
    rw [← add_assoc, add_right_comm]
    exact chkLoop_get h.2 hi

structure Accepted (filter : List SockFilter) : Prop where
  pos : 0 < filter.length
  len_le : filter.length ≤ bpfMaxinsns
  insn : ∀ pc fentry, filter[pc]? = some fentry → chkInsn filter.length pc fentry = true
  last : ∀ pc fentry, filter[pc]? = some fentry →
    pc + 1 < filter.length ∨ ∃ rval, decode fentry.code = some (.ret rval)

lemma decode_of_chkInsn (h : chkInsn flen pc fentry = true) :
    ∃ c, decode fentry.code = some c := by
  cases hd : decode fentry.code with
  | none => simp [chkInsn, hd] at h
  | some c => exact ⟨c, rfl⟩

lemma accepted_of_skChkFilter (h : skChkFilter filter = 0) : Accepted filter := by
  unfold skChkFilter at h
  cases hl : filter.getLast? with
  | none => simp [hl, Lib.EINVAL] at h
  | some last =>
    simp only [hl, Lib.EINVAL] at h
    by_cases hlen : bpfMaxinsns < filter.length
    · simp [hlen] at h
    by_cases hloop : chkLoop filter.length 0 filter = false
    · simp [hlen, hloop] at h
    by_cases hret : bpfClass last.code.toNat = bpfRet
    swap
    · simp [hlen, hloop, hret] at h
    have hinsn : ∀ pc fentry, filter[pc]? = some fentry →
        chkInsn filter.length pc fentry = true := by
      intro pc fentry hpc
      have := chkLoop_get (by simpa using hloop) hpc
      rwa [zero_add] at this
    have hlast := hl
    rw [List.getLast?_eq_getElem?] at hlast
    have hpos : 0 < filter.length := List.length_pos_iff.mpr (by rintro rfl; simp at hl)
    refine ⟨hpos, by omega, hinsn, fun pc fentry hpc => ?_⟩
    have hlt := (List.getElem?_eq_some_iff.mp hpc).1
    by_cases hend : pc + 1 < filter.length
    · exact .inl hend
    obtain rfl : pc = filter.length - 1 := by omega
    rw [hpc] at hlast
    obtain rfl := Option.some.inj hlast
    obtain ⟨c, hc⟩ := decode_of_chkInsn (hinsn _ _ hpc)
    rw [← decode_value hc] at hret
    obtain ⟨rval, rfl⟩ := c.ret_of_class hret
    exact .inr ⟨rval, hc⟩

lemma Accepted.runPass (h : Accepted filter) (m : Machine) (skb : SkBuff) (h0 : 0 ≤ s.pc)
    (hlt : s.pc < filter.length) :
    Forward filter.length s.pc (runPass m skb filter s) := by
  obtain ⟨pc, hpc⟩ := Int.eq_ofNat_of_zero_le h0
  obtain ⟨fentry, hget⟩ : ∃ fentry, filter[pc]? = some fentry :=
    ⟨_, List.getElem?_eq_getElem (by omega)⟩
  have hfetch : fetch filter s.pc = filter[pc]? := by rw [fetch, if_pos h0, hpc, Int.toNat_natCast]
  rw [Net.runPass, if_pos hlt, hfetch, hget]
  exact exec_forward hpc h.len_le (h.insn pc _ hget) (h.last pc _ hget)

def fetched (m : Machine) (skb : SkBuff) (filter : List SockFilter) : ℕ → RunState → List ℤ
  | 0, _ => []
  | n + 1, s =>
    if s.pc < filter.length then
      s.pc :: match runPass m skb filter s with
        | .again s' => fetched m skb filter n s'
        | .leave _ => []
    else []

lemma Accepted.fetched (h : Accepted filter) : ∀ (n : ℕ) {s : RunState}, 0 ≤ s.pc →
    (Net.fetched m skb filter n s).Pairwise (· < ·)
      ∧ ∀ pc ∈ Net.fetched m skb filter n s, s.pc ≤ pc ∧ pc < filter.length
  | 0, s, _ => by simp [Net.fetched]
  | n + 1, s, h0 => by
    rw [Net.fetched]
    by_cases hlt : s.pc < filter.length
    · rw [if_pos hlt]
      have hf := h.runPass m skb h0 hlt
      cases hp : Net.runPass m skb filter s with
      | leave stop =>
        refine ⟨List.pairwise_singleton _ _, fun pc hpc => ?_⟩
        obtain rfl := List.mem_singleton.mp hpc
        exact ⟨le_rfl, hlt⟩
      | again s' =>
        rw [hp] at hf
        obtain ⟨h1, h2⟩ := hf
        obtain ⟨ih1, ih2⟩ := h.fetched n (s := s') (by omega)
        refine ⟨List.pairwise_cons.mpr ⟨fun pc hpc => ?_, ih1⟩, fun pc hpc => ?_⟩
        · have := ih2 pc hpc
          omega
        · rcases List.mem_cons.mp hpc with rfl | hpc
          · exact ⟨le_rfl, hlt⟩
          · have := ih2 pc hpc
            omega
    · rw [if_neg hlt]
      simp

lemma Accepted.stops (h : Accepted filter) (m : Machine) (skb : SkBuff)
    (mem : Fin bpfMemwords → BitVec 32) :
    ∃ stop, skRunFilter m skb filter mem = some stop ∧ stop.Clean := by
  have hpos := h.pos
  have hstep : ∀ s : RunState, (0 ≤ s.pc ∧ s.pc < filter.length) →
      (Net.runPass m skb filter s).Next (fun s : RunState => 0 ≤ s.pc ∧ s.pc < filter.length)
        Stop.Clean (fun s => (filter.length - s.pc : ℤ).toNat)
        (filter.length - s.pc : ℤ).toNat := by
    rintro s ⟨h0, hlt⟩
    have hf := h.runPass m skb h0 hlt
    cases hp : Net.runPass m skb filter s with
    | leave stop =>
      rw [hp] at hf
      exact hf
    | again s' =>
      rw [hp] at hf
      obtain ⟨h1, h2⟩ := hf
      exact ⟨⟨by omega, h2⟩, by simp only; omega⟩
  exact Pass.run_of_next hstep _ (s := runStart mem) ⟨le_rfl, by simp only [runStart]; omega⟩
    (by simp only [runStart]; omega)

/-- A program accepted by `sk_chk_filter` runs to a `RET` instruction or an early `return 0`,
whatever the packet and the scratch memory, and fetches its instructions in increasing order. -/
theorem skRunFilter_accepted (h : skChkFilter filter = 0) (m : Machine) (skb : SkBuff)
    (mem : Fin bpfMemwords → BitVec 32) :
    (∃ stop, skRunFilter m skb filter mem = some stop ∧ (stop = .drop ∨ ∃ v, stop = .ret v))
      ∧ ∀ n, (fetched m skb filter n (runStart mem)).Pairwise (· < ·)
        ∧ ∀ pc ∈ fetched m skb filter n (runStart mem), 0 ≤ pc ∧ pc < filter.length := by
  have ha := accepted_of_skChkFilter h
  obtain ⟨stop, hrun, hstop⟩ := ha.stops m skb mem
  refine ⟨⟨stop, hrun, ?_⟩, fun n => ha.fetched n le_rfl⟩
  cases stop with
  | ret v => exact .inr ⟨v, rfl⟩
  | drop => exact .inl rfl
  | _ => exact hstop.elim

/-- A packet of 60 bytes with `ETH_P_IP` at 12. -/
def ipSkb : SkBuff where
  mem i := if i = 12 then 8 else 0
  frag _ := 0
  len := 60
  dataLen := 0
  head := -16
  tail := 60
  networkHeader := 14
  macHeader := 0
  protocol := 0x800
  pktType := 0
  dev := none
  mark := 0
  queueMapping := 0

def ipFilter : List SockFilter :=
  [⟨0x28, 0, 0, 12⟩, ⟨0x15, 0, 1, 0x800⟩, ⟨0x06, 0, 0, 0xffff⟩, ⟨0x06, 0, 0, 0⟩]

theorem skRunFilter_accepted_ip :
    (∃ stop, skRunFilter ⟨.long64, false⟩ ipSkb ipFilter (fun _ => 0) = some stop
        ∧ (stop = .drop ∨ ∃ v, stop = .ret v))
      ∧ ∀ n, (fetched ⟨.long64, false⟩ ipSkb ipFilter n (runStart fun _ => 0)).Pairwise (· < ·)
        ∧ ∀ pc ∈ fetched ⟨.long64, false⟩ ipSkb ipFilter n (runStart fun _ => 0), 0 ≤ pc ∧ pc < 4 :=
  skRunFilter_accepted (by decide +kernel) _ _ _

section

def storesTo (stored : Fin bpfMemwords → Bool) (fentry : SockFilter) : Fin bpfMemwords → Bool :=
  match decode fentry.code with
  | some .st | some .stx =>
    if h : fentry.k.toNat < bpfMemwords then Function.update stored ⟨fentry.k.toNat, h⟩ true
    else stored
  | _ => stored

def loadsStored (stored : Fin bpfMemwords → Bool) (fentry : SockFilter) : Bool :=
  match decode fentry.code with
  | some (.ld .w .mem) | some (.ldx .w .mem) =>
    if h : fentry.k.toNat < bpfMemwords then stored ⟨fentry.k.toNat, h⟩ else true
  | _ => true

def runLoadsStored (m : Machine) (skb : SkBuff) (filter : List SockFilter) :
    ℕ → (Fin bpfMemwords → Bool) → RunState → Bool
  | 0, _, _ => true
  | n + 1, stored, s =>
    if s.pc < filter.length then
      match fetch filter s.pc with
      | none => true
      | some fentry =>
        loadsStored stored fentry && match exec m skb s fentry with
          | .again s' => runLoadsStored m skb filter n (storesTo stored fentry) s'
          | .leave _ => true
    else true

structure SameBut (stored : Fin bpfMemwords → Bool) (s t : RunState) : Prop where
  A : t.A = s.A
  X : t.X = s.X
  pc : t.pc = s.pc
  mem : ∀ k, stored k = true → t.mem k = s.mem k

def SameOutcome (stored : Fin bpfMemwords → Bool) : Outcome → Outcome → Prop
  | .again s, .again t => SameBut stored s t
  | .leave stop, .leave stop' => stop' = stop
  | _, _ => False

variable {stored : Fin bpfMemwords → Bool} {t : RunState}

section

variable (h : SameBut stored s t)

include h

lemma SameBut.setA (A : BitVec 32) :
    SameOutcome stored (setA s A) (setA t A) :=
  ⟨rfl, h.X, congrArg (· + 1) h.pc, h.mem⟩

lemma SameBut.setX (X : BitVec 32) :
    SameOutcome stored (setX s X) (setX t X) :=
  ⟨h.A, rfl, congrArg (· + 1) h.pc, h.mem⟩

lemma SameBut.putA (r : Except Stop (BitVec 32)) :
    SameOutcome stored (putA s r) (putA t r) := by
  cases r with
  | ok A => exact h.setA A
  | error stop => rfl

lemma SameBut.jump (pc : ℤ) :
    SameOutcome stored (next ⟨s.A, s.X, s.mem, pc⟩) (next ⟨t.A, t.X, t.mem, pc⟩) :=
  ⟨h.A, h.X, rfl, h.mem⟩

lemma SameBut.branch (fentry : SockFilter) (cond : Bool) :
    SameOutcome stored (branch s fentry cond) (branch t fentry cond) := by
  unfold Net.branch
  rw [h.pc]
  exact h.jump _

lemma SameBut.store (k : Fin bpfMemwords) (v : BitVec 32) :
    SameOutcome (Function.update stored k true) (next ⟨s.A, s.X, Function.update s.mem k v, s.pc⟩)
      (next ⟨t.A, t.X, Function.update t.mem k v, t.pc⟩) := by
  refine ⟨h.A, h.X, congrArg (· + 1) h.pc, fun i hi => ?_⟩
  by_cases hik : i = k
  · subst hik
    simp
  · simp only [Function.update_of_ne hik] at hi ⊢
    exact h.mem i hi

lemma SameBut.exec (m : Machine) (skb : SkBuff)
    (hload : loadsStored stored fentry = true) :
    SameOutcome (storesTo stored fentry) (exec m skb s fentry) (exec m skb t fentry) := by
  unfold Net.exec storesTo
  unfold loadsStored at hload
  cases hd : decode fentry.code with
  | none => rfl
  | some c =>
    rw [hd] at hload
    rw [h.A, h.X, h.pc]
    match c with
    | .ret rval => cases rval <;> rfl
    | .misc op =>
      cases op
      · exact h.setX _
      · exact h.setA _
    | .st | .stx =>
      simp only [atMem]
      split_ifs
      · have := h.store ⟨fentry.k.toNat, by assumption⟩
        simp only [h.A, h.X, h.pc] at this
        exact this _
      · rfl
    | .alu op src =>
      cases op <;> cases src
      case div.x =>
        simp only
        split_ifs
        · rfl
        · exact h.setA _
      case div.k =>
        simp only
        split_ifs
        · rfl
        · exact h.setA _
      case neg.x => rfl
      all_goals exact h.setA _
    | .jmp op src =>
      cases op <;> cases src
      case ja.k =>
        have := h.jump ((s.pc + fentry.k.toNat).bmod (2 ^ 32))
        simpa only [h.A, h.X] using this
      case ja.x => rfl
      all_goals exact h.branch _ _
    | .ld size mode =>
      cases size <;> cases mode
      case w.mem =>
        simp only [atMem] at hload ⊢
        split_ifs at hload ⊢
        · rw [h.mem _ hload]
          exact h.setA _
        · rfl
      all_goals first | rfl | exact h.setA _ | exact h.putA _
    | .ldx size mode =>
      cases size <;> cases mode
      case w.mem =>
        simp only [atMem] at hload ⊢
        split_ifs at hload ⊢
        · rw [h.mem _ hload]
          exact h.setX _
        · rfl
      case b.msh =>
        simp only
        split
        · exact h.setX _
        · rfl
      all_goals first | rfl | exact h.setX _

end

lemma SameBut.run : ∀ (n : ℕ) {stored : Fin bpfMemwords → Bool} {s t : RunState},
    SameBut stored s t → runLoadsStored m skb filter n stored s = true →
    Pass.run (runPass m skb filter) n t = Pass.run (runPass m skb filter) n s
  | 0, _, _, _, _, _ => rfl
  | n + 1, stored, s, t, h, hload => by
    rw [runLoadsStored] at hload
    rw [Pass.run, Pass.run, runPass, runPass, h.pc]
    by_cases hlt : s.pc < filter.length
    · simp only [if_pos hlt] at hload ⊢
      cases hf : fetch filter s.pc with
      | none => rfl
      | some fentry =>
        simp only [hf, Bool.and_eq_true] at hload ⊢
        have hsame := h.exec m skb hload.1
        have hrest := hload.2
        cases hs : Net.exec m skb s fentry with
        | leave stop =>
          cases ht : Net.exec m skb t fentry with
          | leave stop' =>
            rw [hs, ht] at hsame
            exact congrArg some hsame
          | again t' =>
            rw [hs, ht] at hsame
            exact hsame.elim
        | again s' =>
          cases ht : Net.exec m skb t fentry with
          | leave stop' =>
            rw [hs, ht] at hsame
            exact hsame.elim
          | again t' =>
            rw [hs, ht] at hsame
            rw [hs] at hrest
            exact SameBut.run n hsame hrest
    · simp only [if_neg hlt]

def lenFilter : List SockFilter :=
  [⟨0x80, 0, 0, 0⟩, ⟨0x02, 0, 0, 3⟩, ⟨0x60, 0, 0, 3⟩, ⟨0x16, 0, 0, 0⟩]

/-- Returns a scratch word that was never stored to. -/
def leakFilter : List SockFilter := [⟨0x60, 0, 0, 0⟩, ⟨0x16, 0, 0, 0⟩]

end

end LinuxKernel.Net
