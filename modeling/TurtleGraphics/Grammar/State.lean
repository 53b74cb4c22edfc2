import TurtleGraphics.Grammar.Error
import TurtleGraphics.Node
import TurtleGraphics.Token.Feed
import TurtleGraphics.Tree.Written

/-!
The state of reading a program: the tokens to come, the forest of all nodes made so far, and a stack
of the roots that are not yet part of a larger tree. A rule that matches leaves its tree on top of
the stack; an error leaves the state as it was when the fault was found.
-/

namespace TurtleGraphics.Grammar

structure State where
  feed : Feed
  forest : Forest Node
  /-- top first -/
  stack : List Nat

/-- A rule answers whether it matched. One that did not match has used no token, blank lines before
a program apart. -/
abbrev Rule := EStateM SyntaxError State

namespace State

def ofSource (source : String) : State :=
  ⟨.ofSource keywords source, .empty, []⟩

def describe (forest : Forest Node) (h : Nat) : String :=
  match forest.tree h with
  | .ok t => (t.map Node.display).describe
  | .error e => e.message

def described (s : State) : List String :=
  s.stack.reverse.map (describe s.forest)

def error (s : State) (fault : Fault) : SyntaxError :=
  ⟨fault, s.feed.tokenLine, s.described⟩

/-- No rule can go deeper or round a loop more often than there are tokens to come. -/
def bound (s : State) : Nat :=
  s.feed.remaining.length

end State

def fail {α : Type} (fault : Fault) : Rule α := fun s =>
  .error (s.error fault) s

def push (h : Nat) : Rule Unit :=
  modify fun s => { s with stack := h :: s.stack }

def pop : Rule Nat := do
  match (← get).stack with
  | [] => fail .emptyStack
  | h :: rest =>
    modify fun s => { s with stack := rest }
    return h

def group (g : Node.Group) (children : List Nat) : Rule Nat := do
  match (← get).forest.node (.ofGroup g) children with
  | .ok (h, forest) =>
    modify fun s => { s with forest }
    return h
  | .error e => fail (.refused e)

/-- Whether the positions, counted from 1 at the top, name each of the top entries exactly once. -/
def arePositions (positions : List Nat) : Bool :=
  positions.all (fun n => 1 ≤ n && n ≤ positions.length) && decide positions.Nodup

/-- Replaces the top entries by one tree: the entry at position `root`, with the entries at the
positions `children` attached to it in that order. -/
def compose (root : Nat) (children : List Nat) : Rule Unit := do
  let stack := (← get).stack
  let count := children.length + 1
  if stack.length < count then fail .shallowStack
  else if !arePositions (root :: children) then fail (.badPositions root children)
  else
    let entry := fun n => stack.getD (n - 1) 0
    modify fun s => { s with stack := stack.drop count }
    match (← get).forest.addChildren (entry root) (children.map entry) with
    | .ok forest => modify fun s => { s with forest, stack := entry root :: s.stack }
    | .error e => fail (.refused e)

structure Wanted where
  kind : Token.Kind
  text : Option String

def Wanted.accepts (w : Wanted) (t : Token) : Bool :=
  t.kind == w.kind && w.text.all (· == t.text)

def takeToken (w : Wanted) : Rule (Option Token) := do
  match (← get).feed.next? with
  | none => return none
  | some (t, feed) =>
    if w.accepts t then
      modify fun s => { s with feed }
      return some t
    else
      modify fun s => { s with feed := feed.pushBack }
      return none

def accept (w : Wanted) : Rule Bool := do
  return (← takeToken w).isSome

def leaf (w : Wanted) : Rule Bool := do
  match ← takeToken w with
  | none => return false
  | some t =>
    let (h, forest) := (← get).forest.leaf (.ofToken t)
    modify fun s => { s with forest }
    push h
    return true

def keyword (word : String) : Rule Bool :=
  leaf ⟨.keyword, some word⟩

def symbol (text : String) : Rule Bool :=
  leaf ⟨.symbol, some text⟩

def delimiter (text : String) : Rule Bool :=
  accept ⟨.symbol, some text⟩

def expect (rule : Rule Bool) (fault : Fault) : Rule Unit := do
  if !(← rule) then fail fault

def firstOf : List (Rule Bool) → Rule Bool
  | [] => return false
  | rule :: rest => do
    if ← rule then return true
    firstOf rest

/-- Repeats a rule and takes each tree it leaves off the stack. -/
def gather (rule : Rule Bool) : Nat → Rule (List Nat)
  | 0 => return []
  | n + 1 => do
    if !(← rule) then return []
    let h ← pop
    let hs ← gather rule n
    return h :: hs

/-- Repeats an operator and its right operand; the tree on the stack is the left operand. -/
def chain (operator operand : Rule Bool) (fault : Fault) : Nat → Rule Unit
  | 0 => return ()
  | n + 1 => do
    if !(← operator) then return ()
    expect operand fault
    compose 2 [3, 1]
    chain operator operand fault n

end TurtleGraphics.Grammar
