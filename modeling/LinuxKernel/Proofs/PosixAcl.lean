import LinuxKernel.PosixAcl

/-!
# Valid access control lists and the access check

What the loop of `posix_acl_valid` accepts from each state is the rest of a list in order.
`posix_acl_permission` relies on this order: the mask is behind the entry that matched. It stops at
the first group entry that has all the permissions, which is as good as any other.
-/

namespace LinuxKernel.PosixAcl

open List

variable {tag : AclTag} {l acl : List PosixAclEntry} {pa : PosixAclEntry} {id want : BitVec 32}
  {needsMask : Bool} {sub : Subject}

structure AclParts where
  userObj : PosixAclEntry
  users : List PosixAclEntry
  groupObj : PosixAclEntry
  groups : List PosixAclEntry
  mask : Option PosixAclEntry
  other : PosixAclEntry

def AclParts.entries (p : AclParts) : List PosixAclEntry :=
  p.userObj :: (p.users ++ (p.groupObj :: (p.groups ++ (p.mask.toList ++ [p.other]))))

def PermOk (e : PosixAclEntry) : Prop :=
  e.ePerm &&& ~~~(aclRead ||| aclWrite ||| aclExecute) = 0

structure Named (tag : AclTag) (l : List PosixAclEntry) : Prop where
  tag_eq : ∀ e ∈ l, e.eTag = tag
  defined : ∀ e ∈ l, e.eId ≠ aclUndefinedId
  ascending : l.Pairwise fun d e => d.eId < e.eId

structure AclParts.Ok (p : AclParts) : Prop where
  userObj_tag : p.userObj.eTag = .userObj
  users : Named .user p.users
  groupObj_tag : p.groupObj.eTag = .groupObj
  groups : Named .group p.groups
  mask_tag : ∀ m ∈ p.mask, m.eTag = .mask
  other_tag : p.other.eTag = .other
  needsMask : p.users ≠ [] ∨ p.groups ≠ [] → p.mask.isSome = true
  perms : ∀ e ∈ p.entries, PermOk e

inductive Step (pa : PosixAclEntry) : AclState → BitVec 32 → Bool → AclState → BitVec 32 → Bool →
    Prop
  | userObj {id : BitVec 32} {needsMask : Bool} (htag : pa.eTag = .userObj) :
      Step pa .userObj id needsMask .user 0 needsMask
  | user {id : BitVec 32} {needsMask : Bool} (htag : pa.eTag = .user)
      (hdef : pa.eId ≠ aclUndefinedId)
      (hid : id ≤ pa.eId) : Step pa .user id needsMask .user (pa.eId + 1) true
  | groupObj {id : BitVec 32} {needsMask : Bool} (htag : pa.eTag = .groupObj) :
      Step pa .user id needsMask .group 0 needsMask
  | group {id : BitVec 32} {needsMask : Bool} (htag : pa.eTag = .group)
      (hdef : pa.eId ≠ aclUndefinedId)
      (hid : id ≤ pa.eId) : Step pa .group id needsMask .group (pa.eId + 1) true
  | mask {id : BitVec 32} {needsMask : Bool} (htag : pa.eTag = .mask) :
      Step pa .group id needsMask .other id needsMask
  | other {id : BitVec 32} {needsMask : Bool} (htag : pa.eTag = .other) :
      Step pa .other id needsMask .done id needsMask
  | noMask {id : BitVec 32} (htag : pa.eTag = .other) : Step pa .group id false .done id false

lemma validLoop_cons {state : AclState} :
    posixAclValidLoop state id needsMask (pa :: acl) = 0 ↔
      PermOk pa ∧ ∃ state' id' needsMask', Step pa state id needsMask state' id' needsMask' ∧
        posixAclValidLoop state' id' needsMask' acl = 0 := by
  have hEINVAL : -EINVAL ≠ 0 := by decide
  have hle : ¬ (pa.eId = aclUndefinedId ∨ pa.eId < id) ↔ pa.eId ≠ aclUndefinedId ∧ id ≤ pa.eId := by
    rw [not_or, BitVec.not_lt]
  by_cases hperm : PermOk pa
  · have hbits : pa.ePerm &&& ~~~(aclRead ||| aclWrite ||| aclExecute) = 0 := hperm
    rw [posixAclValidLoop, if_neg (not_not.mpr hbits)]
    constructor
    · intro h
      refine ⟨hperm, ?_⟩
      cases htag : pa.eTag with
      | userObj =>
        simp only [htag] at h
        split_ifs at h with hs
        · exact ⟨_, _, _, hs ▸ .userObj htag, h⟩
        · exact absurd h hEINVAL
      | user =>
        simp only [htag] at h
        split_ifs at h with hs hid
        · exact absurd h hEINVAL
        · exact absurd h hEINVAL
        · rw [not_not] at hs
          obtain ⟨hdef, hid⟩ := hle.mp hid
          subst hs
          exact ⟨_, _, _, .user htag hdef hid, h⟩
      | groupObj =>
        simp only [htag] at h
        split_ifs at h with hs
        · exact ⟨_, _, _, hs ▸ .groupObj htag, h⟩
        · exact absurd h hEINVAL
      | group =>
        simp only [htag] at h
        split_ifs at h with hs hid
        · exact absurd h hEINVAL
        · exact absurd h hEINVAL
        · rw [not_not] at hs
          obtain ⟨hdef, hid⟩ := hle.mp hid
          subst hs
          exact ⟨_, _, _, .group htag hdef hid, h⟩
      | mask =>
        simp only [htag] at h
        split_ifs at h with hs
        · exact absurd h hEINVAL
        · rw [not_not] at hs
          exact ⟨_, _, _, hs ▸ .mask htag, h⟩
      | other =>
        simp only [htag] at h
        split_ifs at h with hs
        · rcases hs with rfl | ⟨rfl, rfl⟩
          · exact ⟨_, _, _, .other htag, h⟩
          · exact ⟨_, _, _, .noMask htag, h⟩
        · exact absurd h hEINVAL
      | unknown value =>
        simp only [htag] at h
        exact absurd h hEINVAL
    · rintro ⟨-, state', id', needsMask', hstep, h⟩
      cases hstep with
      | userObj htag => simpa only [htag, if_true] using h
      | user htag hdef hid =>
        simpa only [htag, ne_eq, not_true_eq_false, if_false, if_neg (hle.mpr ⟨hdef, hid⟩)] using h
      | groupObj htag => simpa only [htag, if_true] using h
      | group htag hdef hid =>
        simpa only [htag, ne_eq, not_true_eq_false, if_false, if_neg (hle.mpr ⟨hdef, hid⟩)] using h
      | mask htag => simpa only [htag, ne_eq, not_true_eq_false, if_false] using h
      | other htag => simpa only [htag, true_or, if_true] using h
      | noMask htag => simpa [htag] using h
  · have hbits : pa.ePerm &&& ~~~(aclRead ||| aclWrite ||| aclExecute) ≠ 0 := hperm
    rw [posixAclValidLoop, if_pos hbits]
    exact iff_of_false hEINVAL fun h => hperm h.1

lemma validLoop_done : posixAclValidLoop .done id needsMask acl = 0 ↔ acl = [] := by
  cases acl with
  | nil => simp [posixAclValidLoop]
  | cons pa acl =>
    rw [validLoop_cons]
    refine iff_of_false ?_ (cons_ne_nil _ _)
    rintro ⟨-, state', id', needsMask', hstep, -⟩
    cases hstep

lemma validLoop_nil {state : AclState} (h : state ≠ .done) :
    posixAclValidLoop state id needsMask [] ≠ 0 := by
  rw [posixAclValidLoop, if_neg h]
  decide

lemma validLoop_other : posixAclValidLoop .other id needsMask acl = 0 ↔
    ∃ o, acl = [o] ∧ o.eTag = .other ∧ PermOk o := by
  cases acl with
  | nil => exact iff_of_false (validLoop_nil (by decide)) (by simp)
  | cons pa acl =>
    rw [validLoop_cons]
    constructor
    · rintro ⟨hperm, state', id', needsMask', hstep, h⟩
      cases hstep with
      | other htag => exact ⟨pa, by rw [validLoop_done.mp h], htag, hperm⟩
    · rintro ⟨o, heq, htag, hperm⟩
      obtain ⟨rfl, rfl⟩ := cons_eq_cons.mp heq
      exact ⟨hperm, _, _, _, .other htag, validLoop_done.mpr rfl⟩

/-- The entries that can follow an id. -/
structure NamedFrom (tag : AclTag) (id : BitVec 32) (l : List PosixAclEntry) : Prop where
  named : Named tag l
  from_le : ∀ e ∈ l, id ≤ e.eId

lemma add_one_le_iff {x y : BitVec 32} (h : x ≠ aclUndefinedId) : x + 1 ≤ y ↔ x < y := by
  have hx : x.toNat ≠ 2 ^ 32 - 1 := fun hx => h (BitVec.eq_of_toNat_eq hx)
  have hlt := x.isLt
  rw [BitVec.le_def, BitVec.lt_def, BitVec.toNat_add, Nat.mod_eq_of_lt (by
    show x.toNat + 1 < 2 ^ 32
    omega)]
  exact Iff.rfl

lemma namedFrom_cons {e : PosixAclEntry} :
    NamedFrom tag id (e :: l) ↔
      (e.eTag = tag ∧ e.eId ≠ aclUndefinedId ∧ id ≤ e.eId) ∧ NamedFrom tag (e.eId + 1) l := by
  constructor
  · rintro ⟨⟨htag, hdef, hasc⟩, hle⟩
    rw [forall_mem_cons] at htag hdef hle
    obtain ⟨hlt, hasc⟩ := pairwise_cons.mp hasc
    exact ⟨⟨htag.1, hdef.1, hle.1⟩, ⟨htag.2, hdef.2, hasc⟩,
      fun d hd => (add_one_le_iff hdef.1).mpr (hlt d hd)⟩
  · rintro ⟨⟨htag, hdef, hle⟩, ⟨htags, hdefs, hasc⟩, hlt⟩
    have hlt' : ∀ d ∈ l, e.eId < d.eId := fun d hd => (add_one_le_iff hdef).mp (hlt d hd)
    refine ⟨⟨forall_mem_cons.mpr ⟨htag, htags⟩, forall_mem_cons.mpr ⟨hdef, hdefs⟩,
      pairwise_cons.mpr ⟨hlt', hasc⟩⟩, forall_mem_cons.mpr ⟨hle, fun d hd => ?_⟩⟩
    have := hlt' d hd
    rw [BitVec.le_def] at *
    rw [BitVec.lt_def] at this
    omega

lemma namedFrom_nil : NamedFrom tag id [] :=
  ⟨⟨by simp, by simp, List.Pairwise.nil⟩, by simp⟩

lemma Named.namedFrom (h : Named tag l) :
    NamedFrom tag 0 l := ⟨h, fun _ _ => BitVec.le_def.mpr (Nat.zero_le _)⟩

structure GroupPart (id : BitVec 32) (needsMask : Bool) (groups : List PosixAclEntry)
    (mask : Option PosixAclEntry) (other : PosixAclEntry) : Prop where
  named : NamedFrom .group id groups
  mask_tag : ∀ m ∈ mask, m.eTag = .mask
  other_tag : other.eTag = .other
  needs : needsMask = true ∨ groups ≠ [] → mask.isSome = true
  perms : ∀ e ∈ groups ++ (mask.toList ++ [other]), PermOk e

lemma validLoop_group : ∀ {acl : List PosixAclEntry} {id : BitVec 32} {needsMask : Bool},
    posixAclValidLoop .group id needsMask acl = 0 ↔ ∃ groups mask other,
      GroupPart id needsMask groups mask other ∧ acl = groups ++ (mask.toList ++ [other])
  | [], _, _ => iff_of_false (validLoop_nil (by decide)) (by simp)
  | pa :: acl, id, needsMask => by
    rw [validLoop_cons]
    constructor
    · rintro ⟨hperm, state', id', needsMask', hstep, h⟩
      cases hstep with
      | group htag hdef hid =>
        obtain ⟨groups, mask, other, hpart, rfl⟩ := validLoop_group.mp h
        exact ⟨pa :: groups, mask, other, ⟨namedFrom_cons.mpr ⟨⟨htag, hdef, hid⟩, hpart.named⟩,
          hpart.mask_tag, hpart.other_tag, fun _ => hpart.needs (.inl rfl),
          forall_mem_cons.mpr ⟨hperm, hpart.perms⟩⟩, rfl⟩
      | mask htag =>
        obtain ⟨other, rfl, hother, hperm'⟩ := validLoop_other.mp h
        exact ⟨[], some pa, other, ⟨namedFrom_nil, by simpa using htag, hother, fun _ => rfl,
          by simpa using ⟨hperm, hperm'⟩⟩, rfl⟩
      | noMask htag =>
        rw [validLoop_done.mp h]
        exact ⟨[], none, pa, ⟨namedFrom_nil, by simp, htag, by simp, by simpa using hperm⟩, rfl⟩
    · rintro ⟨groups, mask, other, hpart, heq⟩
      have hperms := hpart.perms
      cases groups with
      | cons g groups =>
        obtain ⟨rfl, rfl⟩ := cons_eq_cons.mp heq
        obtain ⟨⟨htag, hdef, hid⟩, hrest⟩ := namedFrom_cons.mp hpart.named
        obtain ⟨hperm, hperms⟩ := forall_mem_cons.mp hperms
        exact ⟨hperm, _, _, _, .group htag hdef hid, validLoop_group.mpr ⟨groups, mask, other,
          ⟨hrest, hpart.mask_tag, hpart.other_tag,
          fun _ => hpart.needs (.inr (cons_ne_nil _ _)), hperms⟩, rfl⟩⟩
      | nil =>
        cases mask with
        | some m =>
          obtain ⟨rfl, rfl⟩ := cons_eq_cons.mp heq
          obtain ⟨hperm, hperms⟩ := forall_mem_cons.mp hperms
          exact ⟨hperm, _, _, _, .mask (hpart.mask_tag _ rfl),
            validLoop_other.mpr ⟨other, rfl, hpart.other_tag, hperms _ (by simp)⟩⟩
        | none =>
          obtain ⟨rfl, rfl⟩ := cons_eq_cons.mp heq
          have hneeds : needsMask = false :=
            Bool.eq_false_iff.mpr fun h => absurd (hpart.needs (.inl h)) (by simp)
          subst hneeds
          exact ⟨hperms _ (by simp), _, _, _, .noMask hpart.other_tag, validLoop_done.mpr rfl⟩

structure UserPart (id : BitVec 32) (needsMask : Bool) (users : List PosixAclEntry)
    (groupObj : PosixAclEntry) (rest : List PosixAclEntry) : Prop where
  named : NamedFrom .user id users
  groupObj_tag : groupObj.eTag = .groupObj
  perms : ∀ e ∈ users ++ [groupObj], PermOk e
  accepted : posixAclValidLoop .group 0 (needsMask || !users.isEmpty) rest = 0

lemma validLoop_user : ∀ {acl : List PosixAclEntry} {id : BitVec 32} {needsMask : Bool},
    posixAclValidLoop .user id needsMask acl = 0 ↔ ∃ users groupObj rest,
      UserPart id needsMask users groupObj rest ∧ acl = users ++ (groupObj :: rest)
  | [], _, _ => iff_of_false (validLoop_nil (by decide)) (by simp)
  | pa :: acl, id, needsMask => by
    rw [validLoop_cons]
    constructor
    · rintro ⟨hperm, state', id', needsMask', hstep, h⟩
      cases hstep with
      | user htag hdef hid =>
        obtain ⟨users, groupObj, rest, hpart, rfl⟩ := validLoop_user.mp h
        exact ⟨pa :: users, groupObj, rest, ⟨namedFrom_cons.mpr ⟨⟨htag, hdef, hid⟩, hpart.named⟩,
          hpart.groupObj_tag, forall_mem_cons.mpr ⟨hperm, hpart.perms⟩,
          by simpa using hpart.accepted⟩, rfl⟩
      | groupObj htag =>
        exact ⟨[], pa, acl, ⟨namedFrom_nil, htag, by simpa using hperm, by simpa using h⟩, rfl⟩
    · rintro ⟨users, groupObj, rest, hpart, heq⟩
      have hperms := hpart.perms
      cases users with
      | cons u users =>
        obtain ⟨rfl, rfl⟩ := cons_eq_cons.mp heq
        obtain ⟨⟨htag, hdef, hid⟩, hrest⟩ := namedFrom_cons.mp hpart.named
        obtain ⟨hperm, hperms⟩ := forall_mem_cons.mp hperms
        exact ⟨hperm, _, _, _, .user htag hdef hid, validLoop_user.mpr ⟨users, groupObj, rest,
          ⟨hrest, hpart.groupObj_tag, hperms, by simpa using hpart.accepted⟩, rfl⟩⟩
      | nil =>
        obtain ⟨rfl, rfl⟩ := cons_eq_cons.mp heq
        exact ⟨hperms _ (by simp), _, _, _, .groupObj hpart.groupObj_tag,
          by simpa using hpart.accepted⟩

lemma posixAclValid_iff :
    posixAclValid acl = 0 ↔ ∃ p : AclParts, p.Ok ∧ acl = p.entries := by
  rw [posixAclValid]
  cases acl with
  | nil => exact iff_of_false (validLoop_nil (by decide)) (by simp [AclParts.entries])
  | cons pa acl =>
    rw [validLoop_cons]
    constructor
    · rintro ⟨hperm, state', id', needsMask', hstep, h⟩
      cases hstep with
      | userObj htag =>
        obtain ⟨users, groupObj, rest, hu, rfl⟩ := validLoop_user.mp h
        obtain ⟨groups, mask, other, hg, rfl⟩ := validLoop_group.mp hu.accepted
        refine ⟨⟨pa, users, groupObj, groups, mask, other⟩, ⟨htag, hu.named.named, hu.groupObj_tag,
          hg.named.named, hg.mask_tag, hg.other_tag, fun hne => hg.needs ?_, ?_⟩, rfl⟩
        · rcases hne with hne | hne
          · exact .inl (by simpa using hne)
          · exact .inr hne
        · refine forall_mem_cons.mpr ⟨hperm, forall_mem_append.mpr ⟨?_,
            forall_mem_cons.mpr ⟨?_, hg.perms⟩⟩⟩
          · exact (forall_mem_append.mp hu.perms).1
          · exact hu.perms _ (by simp)
    · rintro ⟨p, hp, heq⟩
      obtain ⟨rfl, rfl⟩ := cons_eq_cons.mp heq
      obtain ⟨hperm, hperms⟩ := forall_mem_cons.mp hp.perms
      obtain ⟨husers, hperms⟩ := forall_mem_append.mp hperms
      obtain ⟨hgroupObj, hperms⟩ := forall_mem_cons.mp hperms
      refine ⟨hperm, _, _, _, .userObj hp.userObj_tag, validLoop_user.mpr ⟨p.users, p.groupObj, _,
        ⟨hp.users.namedFrom, hp.groupObj_tag, ?_, validLoop_group.mpr ⟨p.groups, p.mask, p.other,
          ⟨hp.groups.namedFrom, hp.mask_tag, hp.other_tag, fun hne => hp.needsMask ?_, hperms⟩,
          rfl⟩⟩, rfl⟩⟩
      · exact forall_mem_append.mpr ⟨husers, by simpa using hgroupObj⟩
      · rcases hne with hne | hne
        · exact .inl (by simpa using hne)
        · exact .inr hne

def AclParts.masked (p : AclParts) (e : PosixAclEntry) : BitVec 16 :=
  match p.mask with
  | none => e.ePerm
  | some m => e.ePerm &&& m.ePerm

def AclParts.matching (p : AclParts) (sub : Subject) : List PosixAclEntry :=
  (if sub.inGroupP sub.iGid then [p.groupObj] else []) ++ p.groups.filter (sub.inGroupP ·.eId)

/-- The access check algorithm of POSIX.1e. -/
def AclParts.grants (p : AclParts) (sub : Subject) (want : BitVec 32) : Bool :=
  if sub.iUid = sub.fsuid then contains p.userObj.ePerm want
  else
    match p.users.find? fun u => decide (u.eId = sub.fsuid) with
    | some u => contains (p.masked u) want
    | none =>
      if (p.matching sub).isEmpty then contains p.other.ePerm want
      else (p.matching sub).any fun g => contains (p.masked g) want

variable {p : AclParts}

lemma contains_and (x y : BitVec 16) :
    contains (x &&& y) want = (contains x want && contains y want) := by
  have hbits (z : BitVec 16) : contains z want = true ↔
      ∀ i, want.getLsbD i = true → (z.setWidth 32).getLsbD i = true := by
    rw [contains, decide_eq_true_eq]
    constructor
    · intro h i hi
      rw [← h, BitVec.getLsbD_and, Bool.and_eq_true] at hi
      exact hi.1
    intro h
    refine BitVec.eq_of_getLsbD_eq fun i _ => ?_
    rw [BitVec.getLsbD_and]
    cases hi : want.getLsbD i with
    | false => exact Bool.and_false _
    | true => rw [h i hi, Bool.and_true]
  rw [Bool.eq_iff_iff, Bool.and_eq_true, hbits, hbits, hbits]
  simp only [BitVec.setWidth_and, BitVec.getLsbD_and, Bool.and_eq_true]
  exact ⟨fun h => ⟨fun i hi => (h i hi).1, fun i hi => (h i hi).2⟩,
    fun h i hi => ⟨h.1 i hi, h.2 i hi⟩⟩

lemma checkMask_append (pa : PosixAclEntry) : ∀ {l l' : List PosixAclEntry},
    (∀ e ∈ l, e.eTag ≠ .mask) → checkMask pa want (l ++ l') = checkMask pa want l'
  | [], _, _ => rfl
  | e :: l, l', h => by
    rw [forall_mem_cons] at h
    rw [cons_append, checkMask, if_neg h.1, checkMask_append pa h.2]

lemma checkMask_eq (hp : p.Ok) (pa : PosixAclEntry)
    (hl : ∀ e ∈ l, e.eTag ≠ .mask) :
    checkMask pa want (l ++ (p.mask.toList ++ [p.other])) = 0 ↔
      contains (p.masked pa) want = true := by
  have hne : -EACCES ≠ 0 := by decide
  have hother : p.other.eTag ≠ .mask := by rw [hp.other_tag]; decide
  rw [checkMask_append pa hl, AclParts.masked]
  cases hm : p.mask with
  | none =>
    rw [Option.toList_none, nil_append, checkMask, if_neg hother, checkMask, checkPerm]
    split_ifs with h
    · exact iff_of_true rfl h
    · exact iff_of_false hne h
  | some m =>
    rw [Option.toList_some, singleton_append, checkMask, if_pos (hp.mask_tag m hm)]
    split_ifs with h
    · exact iff_of_true rfl h
    · exact iff_of_false hne h

lemma contains_masked (p : AclParts) (e : PosixAclEntry) :
    contains (p.masked e) want
      = (contains e.ePerm want && p.mask.all fun m => contains m.ePerm want) := by
  rw [AclParts.masked]
  cases p.mask with
  | none => exact (Bool.and_true _).symm
  | some m => exact contains_and _ _

lemma permissionLoop_groups (hp : p.Ok) : ∀ {l : List PosixAclEntry} {found : Bool},
    (∀ e ∈ l, e.eTag = .group) →
    (posixAclPermissionLoop sub want found (l ++ (p.mask.toList ++ [p.other])) = 0 ↔
      (∃ g ∈ l.filter (sub.inGroupP ·.eId), contains (p.masked g) want = true) ∨
        (found = false ∧ l.filter (sub.inGroupP ·.eId) = [] ∧ contains p.other.ePerm want = true))
  | [], found, _ => by
    have hother : posixAclPermissionLoop sub want found [p.other]
        = if found then -EACCES else checkPerm p.other want := by
      rw [posixAclPermissionLoop]
      simp only [hp.other_tag]
    have hskip : posixAclPermissionLoop sub want found (p.mask.toList ++ [p.other])
        = posixAclPermissionLoop sub want found [p.other] := by
      cases hm : p.mask with
      | none => rfl
      | some m =>
        rw [Option.toList_some, singleton_append, posixAclPermissionLoop]
        simp only [hp.mask_tag m hm]
    rw [nil_append, hskip, hother, checkPerm]
    have hne : -EACCES ≠ 0 := by decide
    cases found with
    | true => simp [hne]
    | false =>
      simp only [Bool.false_eq_true, if_false]
      split_ifs with h <;> simp [h, hne]
  | g :: l, found, h => by
    rw [forall_mem_cons] at h
    have hmask : ∀ e ∈ l, e.eTag ≠ .mask := fun e he => by rw [h.2 e he]; decide
    rw [cons_append, posixAclPermissionLoop]
    simp only [h.1, filter_cons]
    by_cases hin : sub.inGroupP g.eId = true
    · simp only [hin, if_true]
      split_ifs with hc
      · rw [checkMask_eq hp g hmask]
        constructor
        · exact fun hm => .inl ⟨g, mem_cons_self, hm⟩
        · rintro (⟨e, -, he⟩ | ⟨-, hnil, -⟩)
          · rw [contains_masked, Bool.and_eq_true] at *
            exact ⟨hc, he.2⟩
          · cases hnil
      · rw [permissionLoop_groups hp h.2]
        have hg : ¬ contains (p.masked g) want = true := by
          rw [contains_masked, Bool.and_eq_true]
          exact fun hm => hc hm.1
        simp [hg]
    · simp only [hin, Bool.false_eq_true, if_false]
      exact permissionLoop_groups hp h.2

lemma permissionLoop_groupObj (sub : Subject) (want : BitVec 32) (hp : p.Ok) :
    posixAclPermissionLoop sub want false
        (p.groupObj :: (p.groups ++ (p.mask.toList ++ [p.other]))) = 0 ↔
      (if (p.matching sub).isEmpty then contains p.other.ePerm want
        else (p.matching sub).any fun g => contains (p.masked g) want) = true := by
  have hmask : ∀ e ∈ p.groups, e.eTag ≠ .mask := fun e he => by
    rw [hp.groups.tag_eq e he]
    decide
  rw [posixAclPermissionLoop, AclParts.matching]
  simp only [hp.groupObj_tag]
  by_cases hin : sub.inGroupP sub.iGid = true
  · simp only [hin, if_true, singleton_append, isEmpty_cons, Bool.false_eq_true, if_false,
      any_eq_true]
    split_ifs with hc
    · rw [checkMask_eq hp _ hmask]
      constructor
      · exact fun hm => ⟨_, mem_cons_self, hm⟩
      · rintro ⟨e, -, he⟩
        rw [contains_masked, Bool.and_eq_true] at *
        exact ⟨hc, he.2⟩
    · rw [permissionLoop_groups hp hp.groups.tag_eq]
      have hg : ¬ contains (p.masked p.groupObj) want = true := by
        rw [contains_masked, Bool.and_eq_true]
        exact fun hm => hc hm.1
      simp [hg]
  · simp only [hin, Bool.false_eq_true, if_false, nil_append]
    rw [permissionLoop_groups hp hp.groups.tag_eq]
    split_ifs with hemp
    · rw [List.isEmpty_iff] at hemp
      simp [hemp]
    · rw [List.isEmpty_iff] at hemp
      rw [any_eq_true]
      simp only [hemp, false_and, and_false, or_false]

lemma permissionLoop_users (sub : Subject) (want : BitVec 32) (hp : p.Ok)
    {l' : List PosixAclEntry}
    (hl' : ∀ e ∈ l', e.eTag ≠ .mask) : ∀ {l : List PosixAclEntry}, (∀ e ∈ l, e.eTag = .user) →
    (posixAclPermissionLoop sub want false (l ++ (l' ++ (p.mask.toList ++ [p.other]))) = 0 ↔
      match l.find? fun u => decide (u.eId = sub.fsuid) with
      | some u => contains (p.masked u) want = true
      | none => posixAclPermissionLoop sub want false (l' ++ (p.mask.toList ++ [p.other])) = 0)
  | [], _ => Iff.rfl
  | u :: l, h => by
    rw [forall_mem_cons] at h
    rw [cons_append, posixAclPermissionLoop]
    simp only [h.1]
    by_cases hu : u.eId = sub.fsuid
    · have hmask : ∀ e ∈ l ++ l', e.eTag ≠ .mask :=
        forall_mem_append.mpr ⟨fun e he => by rw [h.2 e he]; decide, hl'⟩
      rw [if_pos hu, List.find?_cons_of_pos (by simpa using hu), ← append_assoc,
        checkMask_eq hp u hmask]
    · rw [if_neg hu, List.find?_cons_of_neg (by simpa using hu)]
      exact permissionLoop_users sub want hp hl' h.2

lemma posixAclPermission_iff (hp : p.Ok) :
    posixAclPermission sub p.entries want = 0 ↔ p.grants sub want = true := by
  have hgroups : ∀ e ∈ p.groupObj :: p.groups, e.eTag ≠ .mask :=
    forall_mem_cons.mpr ⟨by rw [hp.groupObj_tag]; decide,
      fun e he => by rw [hp.groups.tag_eq e he]; decide⟩
  rw [posixAclPermission, AclParts.entries, posixAclPermissionLoop, AclParts.grants]
  simp only [hp.userObj_tag]
  by_cases howner : sub.iUid = sub.fsuid
  · rw [if_pos howner, if_pos howner, checkPerm]
    split_ifs with h
    · exact iff_of_true rfl h
    · exact iff_of_false (by decide) h
  · rw [if_neg howner, if_neg howner]
    have husers := permissionLoop_users sub want hp hgroups hp.users.tag_eq
    rw [cons_append] at husers
    rw [husers]
    cases p.users.find? fun u => decide (u.eId = sub.fsuid) with
    | some u => exact Iff.rfl
    | none => exact permissionLoop_groupObj sub want hp

/-- The lists that are valid, and who has access by them. -/
theorem posix_acl_valid_and_permission :
    (∀ acl, posixAclValid acl = 0 ↔ ∃ p : AclParts, p.Ok ∧ acl = p.entries) ∧
    ∀ (p : AclParts), p.Ok → ∀ (sub : Subject) (want : BitVec 32),
      (posixAclPermission sub p.entries want = 0 ↔ p.grants sub want = true) :=
  ⟨fun _ => posixAclValid_iff, fun _ hp _ _ => posixAclPermission_iff hp⟩

end LinuxKernel.PosixAcl
