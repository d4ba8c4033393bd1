import Mathlib

/-!
# `lib/rbtree.c`: augmented red-black trees

`α` is the identity of a node (its address) and `β` the aggregate its user keeps in it. A node in a
tree is the subtree below it and the path of its parents, the nearest first; each parent is a frame
with the side it was left by and the child on its other side. Left and right differ in the source by
an exchange of the two words only, so one definition with the side as an argument stands for both.

A loop that moves `node` upwards leaves the frames below `node` as they are, so it is a function of
the frames from `node` on. `none` is a NULL pointer dereferenced.
-/

namespace LinuxKernel.Rb

inductive Color where
  | red
  | black
deriving DecidableEq

inductive Dir where
  | left
  | right
deriving DecidableEq

def Dir.other : Dir → Dir
  | left => right
  | right => left

/-- `struct rb_node`, with NULL as `nil`. -/
inductive Tree (α β : Type*) where
  | nil
  | node (color : Color) (left : Tree α β) (v : α) (agg : β) (right : Tree α β)

variable {α β : Type*}

namespace Tree

def isRed : Tree α β → Bool
  | node .red _ _ _ _ => true
  | _ => false

def isNil : Tree α β → Bool
  | nil => true
  | _ => false

def v? : Tree α β → Option α
  | nil => none
  | node _ _ v _ _ => some v

def agg? : Tree α β → Option β
  | nil => none
  | node _ _ _ a _ => some a

def paint (color : Color) : Tree α β → Tree α β
  | nil => nil
  | node _ l v a r => node color l v a r

def child (d : Dir) : Tree α β → Tree α β
  | nil => nil
  | node _ l _ _ r => match d with
    | .left => l
    | .right => r

/-- The node with the child `t` on side `d` and `s` on the other. -/
def join (d : Dir) (color : Color) (v : α) (agg : β) (t s : Tree α β) : Tree α β :=
  match d with
  | .left => node color t v agg s
  | .right => node color s v agg t

def toList : Tree α β → List α
  | nil => []
  | node _ l v _ r => l.toList ++ v :: r.toList

end Tree

/-- A parent on the way up, left by its child on side `dir`. -/
structure Frame (α β : Type*) where
  dir : Dir
  color : Color
  v : α
  agg : β
  sibling : Tree α β

def Frame.plug (f : Frame α β) (t : Tree α β) : Tree α β :=
  .join f.dir f.color f.v f.agg t f.sibling

def Frame.paint (color : Color) (f : Frame α β) : Frame α β := { f with color := color }

def plugAll : List (Frame α β) → Tree α β → Tree α β
  | [], t => t
  | f :: path, t => plugAll path (f.plug t)

/-- `rb_set_black(root->rb_node)`, the root being the last frame. -/
def blackenLast : List (Frame α β) → List (Frame α β)
  | [] => []
  | [f] => [f.paint .black]
  | f :: g :: path => f :: blackenLast (g :: path)

section

variable [DecidableEq α]

/-- The node at an address, and its parents. -/
def locate (x : α) : Tree α β → List (Frame α β) → Option (Tree α β × List (Frame α β))
  | .nil, _ => none
  | .node color l v a r, path =>
    if v = x then some (.node color l v a r, path)
    else
      match locate x l (⟨.left, color, v, a, r⟩ :: path) with
      | some loc => some loc
      | none => locate x r (⟨.right, color, v, a, l⟩ :: path)

end

section

/-- The loop of `rb_insert_color` from `node`, which is the frame `n`. After it, the frames below
`n` (a rotation puts one there when `n` goes above its parent), `n`, and the frames above it. -/
def insertUp : Frame α β → List (Frame α β) →
    Option (List (Frame α β) × Frame α β × List (Frame α β))
  | n, [] => some ([], n, [])
  | n, [p] => if p.color = .red then none else some ([], n, [p])
  | n, p :: g :: rest =>
    if p.color = .red then
      if g.sibling.isRed then
        -- the uncle is red: `node = gparent`
        (insertUp { g with color := .red, sibling := g.sibling.paint .black } rest).map
          fun r => ([], n, p.paint .black :: r.1 ++ r.2.1 :: r.2.2)
      else if p.dir = g.dir then
        -- one rotation of `gparent`: the parent is above it, and the loop ends at a black parent
        some ([], n, { p with
          color := .black, sibling := .join g.dir .red g.v g.agg p.sibling g.sibling } :: rest)
      else if n.dir = g.dir then
        -- two rotations: `node` is above both, and the way below it leads through the parent
        some ([p], { n with
          color := .black, sibling := .join g.dir .red g.v g.agg n.sibling g.sibling }, rest)
      else
        -- or through `gparent`
        some ([g.paint .red], { n with
          color := .black, sibling := .join g.dir p.color p.v p.agg p.sibling n.sibling }, rest)
    else some ([], n, p :: g :: rest)

variable [DecidableEq α]

/-- `rb_link_node` at the NULL link that `path` leads to: the new node is red. -/
def rbLinkNode (x : α) (agg : β) (path : List (Frame α β)) : Tree α β :=
  plugAll path (.node .red .nil x agg .nil)

def rbInsertColor (x : α) (root : Tree α β) : Option (Tree α β) :=
  match locate x root [] with
  | some (.node color l v a r, path) =>
    (insertUp ⟨.left, color, v, a, r⟩ path).map
      fun s => plugAll (blackenLast (s.1 ++ s.2.1 :: s.2.2)) l
  | _ => none

end

section

/-- What `__rb_erase_color` does with a black `other`: colour it red, or rotate `parent` with the
frame that is above `parent` then. -/
inductive Fixed (α β : Type*) where
  | recolor (p : Frame α β)
  | rotate (p other : Frame α β)

def eraseOther (p : Frame α β) : Option (Fixed α β) :=
  match p.sibling with
  | .nil => none
  | .node color l v a r =>
    let other : Tree α β := .node color l v a r
    let near := other.child p.dir
    let far := other.child p.dir.other
    if near.isRed = false ∧ far.isRed = false then
      some (.recolor { p with sibling := other.paint .red })
    else if far.isRed = false then
      -- `other` is rotated below its red child, which takes its place
      match near with
      | .nil => none
      | .node _ _ nv na _ =>
        some (.rotate { p with color := .black, sibling := near.child p.dir }
          ⟨p.dir, p.color, nv, na, .join p.dir .black v a (near.child p.dir.other) far⟩)
    else
      some (.rotate { p with color := .black, sibling := near }
        ⟨p.dir, p.color, v, a, far.paint .black⟩)

/-- The loop of `__rb_erase_color` from a black `node` (or NULL): the frames above it. -/
def eraseUp : List (Frame α β) → Option (List (Frame α β))
  | [] => some []
  | p :: rest =>
    match p.sibling with
    | .nil => none
    | .node .red l v a r =>
      -- a red `other` goes above `parent`, which is red then: the loop ends there at the latest
      let other : Tree α β := .node .red l v a r
      let top : Frame α β := ⟨p.dir, .black, v, a, other.child p.dir.other⟩
      match eraseOther { p with color := .red, sibling := other.child p.dir } with
      | none => none
      | some (.recolor p) => some (p.paint .black :: top :: rest)
      | some (.rotate p o) => some (blackenLast (p :: o :: top :: rest))
    | .node .black _ _ _ _ =>
      match eraseOther p with
      | none => none
      | some (.recolor p) =>
        if p.color = .red then some (p.paint .black :: rest)
        else (eraseUp rest).map (p :: ·)
      | some (.rotate p o) => some (blackenLast (p :: o :: rest))

def eraseColor (node : Tree α β) (path : List (Frame α β)) : Option (Tree α β) :=
  if node.isRed then some (plugAll path (node.paint .black))
  else (eraseUp path).map (plugAll · node)

/-- The end of `rb_erase`: `child` has taken the place of a node of this colour. -/
def eraseChild (color : Color) (child : Tree α β) (path : List (Frame α β)) :
    Option (Tree α β) :=
  if color = .black then eraseColor child path else some (plugAll path child)

/-- The leftmost node below a node, and the parents between them. -/
def leftmost : Tree α β → List (Frame α β) → Option ((Color × α × β × Tree α β) × List (Frame α β))
  | .nil, _ => none
  | .node color l v a r, path =>
    if l.isNil then some ((color, v, a, r), path)
    else leftmost l (⟨.left, color, v, a, r⟩ :: path)

variable [DecidableEq α]

def rbErase (x : α) (root : Tree α β) : Option (Tree α β) :=
  match locate x root [] with
  | some (.node color l _ _ r, path) =>
    if l.isNil then eraseChild color r path
    else if r.isNil then eraseChild color l path
    else
      match leftmost r [] with
      | some ((c, v, a, child), frames) =>
        eraseChild c child (frames ++ ⟨.right, color, v, a, l⟩ :: path)
      | none => none
  | _ => none

end

section

/-- `func`: the aggregate of a node from the node and the aggregates of its children. -/
abbrev Func (α β : Type*) := α → Option β → Option β → β

variable (func : Func α β)

def recompute : Tree α β → Tree α β
  | .nil => .nil
  | .node color l v _ r => .node color l v (func v l.agg? r.agg?) r

/-- `rb_augment_path` from the node `t`. -/
def augmentPath : Tree α β → List (Frame α β) → Tree α β
  | t, [] => recompute func t
  | t, p :: path =>
    if p.dir = .left ∧ p.sibling.isNil then
      -- no right child: `parent->rb_left`, the node itself, is done again
      augmentPath (p.plug (recompute func (recompute func t))) path
    else
      augmentPath ({ p with sibling := recompute func p.sibling }.plug (recompute func t)) path

variable [DecidableEq α]

def rbAugmentInsert (x : α) (root : Tree α β) : Option (Tree α β) :=
  match locate x root [] with
  | some (.node color l v a r, path) =>
    if ¬l.isNil then some (augmentPath func l (⟨.left, color, v, a, r⟩ :: path))
    else if ¬r.isNil then some (augmentPath func r (⟨.right, color, v, a, l⟩ :: path))
    else some (augmentPath func (.node color l v a r) path)
  | _ => none

/-- `rb_augment_erase_begin`: the address `deepest`, or NULL. -/
def rbAugmentEraseBegin (x : α) (root : Tree α β) : Option α :=
  match locate x root [] with
  | some (.node _ l _ _ r, path) =>
    if r.isNil ∧ l.isNil then path.head?.map (·.v)
    else if r.isNil then l.v?
    else if l.isNil then r.v?
    else
      match leftmost r [] with
      | some ((_, v, _, right), frames) =>
        if ¬right.isNil then right.v?
        else
          -- the parent of the next node, unless that is the node itself
          match frames with
          | [] => some v
          | parent :: _ => some parent.v
      | none => none
  | _ => none

def rbAugmentEraseEnd (deepest : Option α) (root : Tree α β) : Option (Tree α β) :=
  match deepest with
  | none => some root
  | some x => (locate x root []).map fun loc => augmentPath func loc.1 loc.2

end

end LinuxKernel.Rb
