import TurtleGraphics.Tree

/-!
A forest under construction. Every node ever made keeps its handle, the number of nodes made before
it. A node is made detached and attached later, so several roots may stand side by side.
-/

namespace TurtleGraphics

structure Forest.Entry (α : Type) where
  value : α
  children : List Nat
  parent : Option Nat
deriving DecidableEq

structure Forest (α : Type) where
  entries : Array (Forest.Entry α)
deriving DecidableEq

namespace Forest

variable {α β : Type}

inductive Error
  | cycle (parent child : Nat)
  | alreadyAttached (node : Nat)
  | indexOutOfBounds (index count : Nat)
  /-- a handle that was never given out, in a forest of `size` nodes -/
  | noSuchNode (size handle : Nat)
deriving DecidableEq

def Error.message : Error → String
  | cycle parent child => s!"attaching node {child} under node {parent} would create a cycle"
  | alreadyAttached node => s!"node {node} already has a parent"
  | indexOutOfBounds index count =>
    s!"child index {index} out of bounds for node with {count} children"
  | noSuchNode size handle => s!"index out of bounds: the len is {size} but the index is {handle}"

def empty : Forest α :=
  ⟨#[]⟩

def size (f : Forest α) : Nat :=
  f.entries.size

def entry (f : Forest α) (h : Nat) : Except Error (Entry α) :=
  match f.entries[h]? with
  | some e => .ok e
  | none => .error (.noSuchNode f.size h)

def value (f : Forest α) (h : Nat) : Except Error α :=
  (f.entry h).map (·.value)

def parent (f : Forest α) (h : Nat) : Except Error (Option Nat) :=
  (f.entry h).map (·.parent)

def children (f : Forest α) (h : Nat) : Except Error (List Nat) :=
  (f.entry h).map (·.children)

/-- The handles of the nodes without a parent, in the order the nodes were made. -/
def roots (f : Forest α) : List Nat :=
  (List.range f.size).filter fun h => (f.entries[h]?).any (·.parent.isNone)

def map (g : α → β) (f : Forest α) : Forest β :=
  ⟨f.entries.map fun e => ⟨g e.value, e.children, e.parent⟩⟩

def below (f : Forest α) (h : Nat) : List Nat :=
  (f.entries[h]?).elim [] (·.children)

/-- The nodes looked at in a search among those waiting and everything below them, in order. The
search ends at its target, and `steps` bounds it. -/
def looked (f : Forest α) (target : Nat) : Nat → List Nat → List Nat
  | _, [] => []
  | 0, _ :: _ => []
  | steps + 1, h :: waiting =>
    if h = target then [h] else h :: f.looked target steps (f.below h ++ waiting)

/-- Whether `node` is `root` or lies below it. No node is looked at twice, so the number of nodes is
bound enough. -/
def contains (f : Forest α) (root node : Nat) : Except Error Bool :=
  if root = node then .ok true
  else (f.entry root).map fun _ => (f.looked node f.size [root]).contains node

def treeWithin (f : Forest α) : Nat → Nat → Except Error (Tree α)
  | 0, h => .error (.noSuchNode f.size h)
  | depth + 1, h => do
    let e ← f.entry h
    let ts ← e.children.mapM (f.treeWithin depth)
    return .node e.value ts

/-- The tree below a node. A path down visits no node twice, so it is no longer than the number of
nodes. -/
def tree (f : Forest α) (h : Nat) : Except Error (Tree α) :=
  f.treeWithin (f.size + 1) h

end Forest

end TurtleGraphics
