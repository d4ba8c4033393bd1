import Mathlib.Data.BitVec

/-!
# POSIX access control lists

`posix_acl_valid` and `posix_acl_permission` of `fs/posix_acl.c`. The credentials of the task are
its `fsuid` and the groups `in_group_p` finds it in.
-/

namespace LinuxKernel.PosixAcl

/-- The values of `e_tag`. -/
inductive AclTag where
  | userObj | user | groupObj | group | mask | other
  | unknown (value : ℤ)
deriving DecidableEq

structure PosixAclEntry where
  eTag : AclTag
  ePerm : BitVec 16
  eId : BitVec 32
deriving DecidableEq

def aclUndefinedId : BitVec 32 := -1
def aclRead : BitVec 16 := 0x04
def aclWrite : BitVec 16 := 0x02
def aclExecute : BitVec 16 := 0x01

def EINVAL : ℤ := 22
def EACCES : ℤ := 13
def EIO : ℤ := 5

/-- The values of `state` in `posix_acl_valid`. -/
inductive AclState where
  | userObj | user | group | other | done
deriving DecidableEq

def posixAclValidLoop : AclState → BitVec 32 → Bool → List PosixAclEntry → ℤ
  | state, _, _, [] => if state = .done then 0 else -EINVAL
  | state, id, needsMask, pa :: acl =>
    if pa.ePerm &&& ~~~(aclRead ||| aclWrite ||| aclExecute) ≠ 0 then -EINVAL
    else
      match pa.eTag with
      | .userObj =>
        if state = .userObj then posixAclValidLoop .user 0 needsMask acl else -EINVAL
      | .user =>
        if state ≠ .user then -EINVAL
        else if pa.eId = aclUndefinedId ∨ pa.eId < id then -EINVAL
        else posixAclValidLoop state (pa.eId + 1) true acl
      | .groupObj =>
        if state = .user then posixAclValidLoop .group 0 needsMask acl else -EINVAL
      | .group =>
        if state ≠ .group then -EINVAL
        else if pa.eId = aclUndefinedId ∨ pa.eId < id then -EINVAL
        else posixAclValidLoop state (pa.eId + 1) true acl
      | .mask =>
        if state ≠ .group then -EINVAL else posixAclValidLoop .other id needsMask acl
      | .other =>
        if state = .other ∨ (state = .group ∧ needsMask = false) then
          posixAclValidLoop .done id needsMask acl
        else -EINVAL
      | .unknown _ => -EINVAL

def posixAclValid (acl : List PosixAclEntry) : ℤ :=
  posixAclValidLoop .userObj 0 false acl

/-- Whether all of `want` is in `perm`. -/
def contains (perm : BitVec 16) (want : BitVec 32) : Bool :=
  decide (perm.setWidth 32 &&& want = want)

def checkPerm (pa : PosixAclEntry) (want : BitVec 32) : ℤ :=
  if contains pa.ePerm want then 0 else -EACCES

def checkMask (pa : PosixAclEntry) (want : BitVec 32) : List PosixAclEntry → ℤ
  | [] => checkPerm pa want
  | maskObj :: acl =>
    if maskObj.eTag = .mask then
      if contains (pa.ePerm &&& maskObj.ePerm) want then 0 else -EACCES
    else checkMask pa want acl

/-- What `posix_acl_permission` reads of the inode and of the task. -/
structure Subject where
  iUid : BitVec 32
  iGid : BitVec 32
  fsuid : BitVec 32
  inGroupP : BitVec 32 → Bool

def posixAclPermissionLoop (sub : Subject) (want : BitVec 32) : Bool → List PosixAclEntry → ℤ
  | _, [] => - EIO
  | found, pa :: acl =>
    match pa.eTag with
    | .userObj =>
      if sub.iUid = sub.fsuid then checkPerm pa want
      else posixAclPermissionLoop sub want found acl
    | .user =>
      if pa.eId = sub.fsuid then checkMask pa want acl
      else posixAclPermissionLoop sub want found acl
    | .groupObj =>
      if sub.inGroupP sub.iGid then
        if contains pa.ePerm want then checkMask pa want acl
        else posixAclPermissionLoop sub want true acl
      else posixAclPermissionLoop sub want found acl
    | .group =>
      if sub.inGroupP pa.eId then
        if contains pa.ePerm want then checkMask pa want acl
        else posixAclPermissionLoop sub want true acl
      else posixAclPermissionLoop sub want found acl
    | .mask => posixAclPermissionLoop sub want found acl
    | .other => if found then -EACCES else checkPerm pa want
    | .unknown _ => - EIO

def posixAclPermission (sub : Subject) (acl : List PosixAclEntry) (want : BitVec 32) : ℤ :=
  posixAclPermissionLoop sub want false acl

end LinuxKernel.PosixAcl
