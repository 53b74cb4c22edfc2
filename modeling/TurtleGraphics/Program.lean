import TurtleGraphics.Grammar.Attempt
import TurtleGraphics.Run.Machine

/-!
A program is a forest and the root of its tree there. Reading a text yields a program or the first
error, and a text with a fault in it is not run at all.
-/

namespace TurtleGraphics

structure Program where
  forest : Forest Node
  root : Nat
  tree : Tree Node
  tree_eq : forest.tree root = .ok tree

namespace Program

def at? (forest : Forest Node) (root : Nat) : Except Forest.Error Program :=
  match h : forest.tree root with
  | .ok tree => .ok ⟨forest, root, tree, h⟩
  | .error e => .error e

def describe (p : Program) : String :=
  (p.tree.map Node.display).describe

def outline (p : Program) : String :=
  (p.tree.map Node.display).outline

def finish : Grammar.Rule Program := do
  let root ← Grammar.pop
  match at? (← get).forest root with
  | .ok p => return p
  | .error e => Grammar.fail (.refused e)

/-- A final line end is supplied where the text has none. -/
def complete (source : String) : String :=
  if source.endsWith "\n" then source else source ++ "\n"

def read : Grammar.Rule Program := do
  Grammar.expect (Grammar.recognise .program) .noCommand
  finish

def parse (source : String) : Except SyntaxError Program :=
  match read (.ofSource (complete source)) with
  | .ok p _ => .ok p
  | .error e _ => .error e

end Program

inductive SourceError
  | unread (e : SyntaxError)
  | failed (e : RuntimeError)
deriving DecidableEq

def SourceError.message : SourceError → String
  | unread e => "syntax error: " ++ e.message
  | failed e => "runtime error: " ++ e.message

namespace Program

variable {ω : Type} [Host ω]

def run (limit : Nat) (m : Machine ω) (p : Program) : Progress ω :=
  m.run limit p.tree

def runSource (limit : Nat) (m : Machine ω) (source : String) :
    Except SyntaxError (Progress ω) :=
  (parse source).map (run limit m)

end Program

end TurtleGraphics
