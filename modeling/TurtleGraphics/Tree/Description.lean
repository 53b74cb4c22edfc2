import TurtleGraphics.Forest.Edit
import TurtleGraphics.Text.CharClass

/-!
Reading a tree from its description.

    tree = WORD | WORD "(" tree* ")"

Blanks and commas separate words, and a parenthesis stands for itself. The nodes are made from the
leaves up, so that a child has a smaller handle than its parent.
-/

namespace TurtleGraphics.Tree

inductive Mark
  | opening
  | closing
  | word (text : String)
deriving DecidableEq

def Mark.text : Mark → String
  | opening => "("
  | closing => ")"
  | word text => text

inductive Description.Error
  | empty
  | leftover (marks : List Mark)
  | unexpectedOpening (rest : List Mark)
  | unclosed
  /-- the nodes read could not be put together -/
  | refused (e : Forest.Error)
deriving DecidableEq

namespace Description

def joined (marks : List Mark) : String :=
  " ".intercalate (marks.map Mark.text)

def Error.message : Error → String
  | empty => "bad tree description: empty description"
  | leftover marks => "bad tree description: leftover input: " ++ joined marks
  | unexpectedOpening rest => "bad tree description: unexpected `(` before " ++ joined rest
  | unclosed => "bad tree description: unclosed '('"
  | refused e => e.message

def finished : List Char → List Mark
  | [] => []
  | c :: cs => [.word (String.ofList (c :: cs).reverse)]

def separates (c : Char) : Bool :=
  c == '(' || c == ')' || c == ',' || Text.isBlank c

def brackets (c : Char) : List Mark :=
  if c == '(' then [.opening] else if c == ')' then [.closing] else []

def marksFrom (read : List Char) : List Char → List Mark
  | [] => finished read
  | c :: cs =>
    if separates c then finished read ++ brackets c ++ marksFrom [] cs
    else marksFrom (c :: read) cs

def marks (text : String) : List Mark :=
  marksFrom [] text.toList

structure Open where
  word : String
  children : List (Tree String)

def Open.close (o : Open) : Tree String :=
  .node o.word o.children.reverse

def Open.add (o : Open) (t : Tree String) : Open :=
  { o with children := t :: o.children }

/-- Reads one tree, inside the words that are open, innermost first. -/
def read : List Open → List Mark → Except Error (Tree String × List Mark)
  | [], [] => .error .empty
  | _ :: _, [] => .error .unclosed
  | _, .opening :: rest => .error (.unexpectedOpening rest)
  | [], .closing :: _ => .error .empty
  | [o], .closing :: rest => .ok (o.close, rest)
  | o :: p :: os, .closing :: rest => read (p.add o.close :: os) rest
  | os, .word w :: .opening :: rest => read (⟨w, []⟩ :: os) rest
  | [], .word w :: rest => .ok (.node w [], rest)
  | o :: os, .word w :: rest => read (o.add (.node w []) :: os) rest

def tree (text : String) : Except Error (Tree String) := do
  let (t, rest) ← read [] (marks text)
  if rest.isEmpty then return t
  throw (.leftover rest)

end Description

end Tree

namespace Forest

variable {α : Type}

mutual

/-- Makes the nodes of a tree, children before their parent, and gives the handle of its root. -/
def plant (f : Forest α) : Tree α → Except Error (Nat × Forest α)
  | .node v ts => do
    let (hs, f) ← f.plantAll ts
    f.node v hs

def plantAll (f : Forest α) : List (Tree α) → Except Error (List Nat × Forest α)
  | [] => .ok ([], f)
  | t :: ts => do
    let (h, f) ← f.plant t
    let (hs, f) ← f.plantAll ts
    return (h :: hs, f)

end

def ofDescription (text : String) :
    Except Tree.Description.Error (Nat × Forest String) := do
  let t ← Tree.Description.tree text
  match empty.plant t with
  | .ok planted => return planted
  | .error e => throw (.refused e)

end Forest

end TurtleGraphics
