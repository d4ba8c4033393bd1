import LinuxKernel.Word

/-!
# Resources

`__request_resource`, `find_resource`, `allocate_resource`, `adjust_resource` and
`reserve_region_with_split` of `kernel/resource.c`. A `resource_size_t` is a natural below `2 ^ w`.
A resource is its range and the list of its children in the order of the sibling pointers; a
resource below another is named by the positions on the way to it. Allocations succeed.
-/

namespace LinuxKernel

/-- `struct resource`: `start`, `end` and the children. -/
inductive Resource where
  | node (start stop : ℕ) (children : List Resource)

namespace Resource

def EBUSY : ℤ := 16

def start : Resource → ℕ
  | .node start _ _ => start

def stop : Resource → ℕ
  | .node _ stop _ => stop

def children : Resource → List Resource
  | .node _ _ children => children

def setChildren : Resource → List Resource → Resource
  | .node start stop _, children => .node start stop children

/-- The loop of `__request_resource`: the conflict, or the children with `new` among them. -/
def requestLoop (new : Resource) : List Resource → Except Resource (List Resource)
  | [] => .ok [new]
  | tmp :: rest =>
    if tmp.start > new.stop then .ok (new :: tmp :: rest)
    else if tmp.stop < new.start then
      match requestLoop new rest with
      | .ok children => .ok (tmp :: children)
      | .error conflict => .error conflict
    else .error tmp

def requestResource (root new : Resource) : Except Resource Resource :=
  if new.stop < new.start then .error root
  else if new.start < root.start then .error root
  else if new.stop > root.stop then .error root
  else
    match requestLoop new root.children with
    | .ok children => .ok (root.setChildren children)
    | .error conflict => .error conflict

section

variable (w : ℕ)

def alignUp (x align : ℕ) : ℕ := addMod w x (align - 1) &&& ((2 ^ w - 1) ^^^ (align - 1))

/-- The start of the window that `find_resource` tests. -/
def windowStart (min align start : ℕ) : ℕ := alignUp w (if start < min then min else start) align

def windowStop (root : Resource) (max : ℕ) (this : List Resource) : ℕ :=
  let stop := match this with
    | [] => root.stop
    | this :: _ => subMod w this.start 1
  if stop > max then max else stop

/-- The loop of `find_resource` with `tmp.start` and `this`; `alignf` is given the window. -/
def findLoop (root : Resource) (size min max align : ℕ) (alignf : Option (ℕ → ℕ → ℕ → ℕ → ℕ)) :
    ℕ → List Resource → Option (ℕ × ℕ)
  | start, this =>
    let stop := windowStop w root max this
    let start := windowStart w min align start
    let start := match alignf with
      | none => start
      | some alignf => alignf start stop size align
    if start < stop ∧ stop - start ≥ subMod w size 1 then
      some (start, subMod w (addMod w start size) 1)
    else
      match this with
      | [] => none
      | this :: rest => findLoop root size min max align alignf (addMod w this.stop 1) rest

def findResource (root : Resource) (size min max align : ℕ)
    (alignf : Option (ℕ → ℕ → ℕ → ℕ → ℕ)) : Option (ℕ × ℕ) :=
  match root.children with
  | [] => findLoop w root size min max align alignf root.start []
  | this :: rest =>
    if this.start = 0 then findLoop w root size min max align alignf (addMod w this.stop 1) rest
    else findLoop w root size min max align alignf root.start (this :: rest)

/-- `allocate_resource`: `-EBUSY`, or the new resource and the root with it. -/
def allocateResource (root : Resource) (size min max align : ℕ)
    (alignf : Option (ℕ → ℕ → ℕ → ℕ → ℕ)) : Except ℤ (Resource × Resource) :=
  match findResource w root size min max align alignf with
  | none => .error (-EBUSY)
  | some (start, stop) =>
    match requestResource root (.node start stop []) with
    | .ok root => .ok (.node start stop [], root)
    | .error _ => .error (-EBUSY)

/-- `adjust_resource` on the child `res` of `parent`, between its siblings: 0 or `-EBUSY`, and
`res` afterwards. -/
def adjustChild (parent : Resource) (before : List Resource) (res : Resource)
    (after : List Resource) (start size : ℕ) : ℤ × Resource :=
  let stop := subMod w (addMod w start size) 1
  if start < parent.start ∨ stop > parent.stop then (-EBUSY, res)
  else if res.children.any fun tmp => tmp.start < start || tmp.stop > stop then (-EBUSY, res)
  else if after.head?.any fun sibling => sibling.start ≤ stop then (-EBUSY, res)
  else if before.getLast?.any fun tmp => start ≤ tmp.stop then (-EBUSY, res)
  else (0, .node start stop res.children)

/-- `adjust_resource` on child `i` of the resource that `path` leads to; `none` where there is no
such resource. -/
def adjustResource (start size i : ℕ) : List ℕ → Resource → Option (ℤ × Resource)
  | [], parent =>
    match parent.children[i]? with
    | none => none
    | some res =>
      let r := adjustChild w parent (parent.children.take i) res (parent.children.drop (i + 1))
        start size
      some (r.1, parent.setChildren (parent.children.set i r.2))
  | k :: path, root =>
    match root.children[k]? with
    | none => none
    | some c =>
      match adjustResource start size i path c with
      | none => none
      | some r => some (r.1, root.setChildren (root.children.set k r.2))

end

/-- `__reserve_region_with_split`; `none` where the recursion is deeper than the fuel. -/
def reserveRegionWithSplit : ℕ → Resource → ℕ → ℕ → Option Resource
  | 0, _, _, _ => none
  | fuel + 1, root, start, stop =>
    match requestResource root (.node start stop []) with
    | .ok root => some root
    | .error conflict =>
      if conflict.start ≤ start ∧ conflict.stop ≥ stop then some root
      else
        let left :=
          if conflict.start > start then
            reserveRegionWithSplit fuel root start (conflict.start - 1)
          else some root
        match left with
        | none => none
        | some root =>
          if conflict.stop < stop then reserveRegionWithSplit fuel root (conflict.stop + 1) stop
          else some root

end Resource

end LinuxKernel
