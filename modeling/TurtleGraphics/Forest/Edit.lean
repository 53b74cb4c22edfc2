import TurtleGraphics.Forest

/-!
Changes to a forest. A node has one parent at most and never comes to lie below itself; an edit that
would break this is refused, and a refused edit changes nothing.
-/

namespace TurtleGraphics.Forest

variable {α : Type}

def leaf (f : Forest α) (value : α) : Nat × Forest α :=
  (f.size, ⟨f.entries.push ⟨value, [], none⟩⟩)

/-- Whether `child` may be attached under `parent`, or under a node that is yet to be made. -/
def checkChild (f : Forest α) (parent : Option Nat) (earlier : List Nat) (child : Nat) :
    Except Error Unit := do
  match parent with
  | some p => if ← f.contains child p then throw (.cycle p child)
  | none => pure ()
  let e ← f.entry child
  if e.parent.isSome || earlier.contains child then throw (.alreadyAttached child)

/-- The first child in the list that may not be attached decides. -/
def checkChildren (f : Forest α) (parent : Option Nat) (earlier : List Nat) :
    List Nat → Except Error Unit
  | [] => .ok ()
  | child :: rest => do
    f.checkChild parent earlier child
    f.checkChildren parent (child :: earlier) rest

def link (f : Forest α) (parent child : Nat) (place : List Nat → List Nat) : Forest α :=
  ⟨(f.entries.modify parent fun e => { e with children := place e.children }).modify child
    fun e => { e with parent := some parent }⟩

def append (f : Forest α) (parent child : Nat) : Forest α :=
  f.link parent child (· ++ [child])

def appendAll (f : Forest α) (parent : Nat) (children : List Nat) : Forest α :=
  children.foldl (·.append parent ·) f

def node (f : Forest α) (value : α) (children : List Nat) : Except Error (Nat × Forest α) := do
  f.checkChildren none [] children
  let (h, made) := f.leaf value
  return (h, made.appendAll h children)

/-- Attaches every child in order, or none of them if one is refused. -/
def addChildren (f : Forest α) (parent : Nat) (children : List Nat) :
    Except Error (Forest α) := do
  f.checkChildren (some parent) [] children
  if children.isEmpty then return f
  let _ ← f.entry parent
  return f.appendAll parent children

def addChild (f : Forest α) (parent child : Nat) : Except Error (Forest α) :=
  f.addChildren parent [child]

/-- Attaches `child` so that it becomes the child number `index` of `parent`, counted from 0. -/
def insertChild (f : Forest α) (parent index child : Nat) : Except Error (Forest α) := do
  let e ← f.entry parent
  if index > e.children.length then throw (.indexOutOfBounds index e.children.length)
  f.checkChildren (some parent) [] [child]
  return f.link parent child (·.insertIdx index child)

def removeChild (f : Forest α) (parent index : Nat) : Except Error (Nat × Forest α) := do
  let e ← f.entry parent
  match e.children[index]? with
  | none => throw (.indexOutOfBounds index e.children.length)
  | some child =>
    let cut := f.entries.modify parent fun e => { e with children := e.children.eraseIdx index }
    return (child, ⟨cut.modify child fun e => { e with parent := none }⟩)

def setValue (f : Forest α) (h : Nat) (value : α) : Except Error (α × Forest α) := do
  let e ← f.entry h
  return (e.value, ⟨f.entries.modify h fun e => { e with value := value }⟩)

inductive Edit (α : Type)
  | leaf (value : α)
  | node (value : α) (children : List Nat)
  | addChild (parent child : Nat)
  | insertChild (parent index child : Nat)
  | addChildren (parent : Nat) (children : List Nat)
  | removeChild (parent index : Nat)
  | setValue (handle : Nat) (value : α)

inductive Edit.Answer (α : Type)
  | handle (h : Nat)
  | done
  | value (old : α)

def apply (f : Forest α) : Edit α → Except Error (Edit.Answer α × Forest α)
  | .leaf v =>
    let (h, f) := f.leaf v
    .ok (.handle h, f)
  | .node v cs => (f.node v cs).map fun (h, f) => (.handle h, f)
  | .addChild p c => (f.addChild p c).map (.done, ·)
  | .insertChild p i c => (f.insertChild p i c).map (.done, ·)
  | .addChildren p cs => (f.addChildren p cs).map (.done, ·)
  | .removeChild p i => (f.removeChild p i).map fun (h, f) => (.handle h, f)
  | .setValue h v => (f.setValue h v).map fun (old, f) => (.value old, f)

/-- The forest after an edit, which is the forest before if the edit is refused. -/
def after (f : Forest α) (e : Edit α) : Forest α :=
  match f.apply e with
  | .ok (_, f) => f
  | .error _ => f

def afterAll (f : Forest α) (es : List (Edit α)) : Forest α :=
  es.foldl after f

end TurtleGraphics.Forest
