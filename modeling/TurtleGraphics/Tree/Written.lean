import TurtleGraphics.Text.Quoted
import TurtleGraphics.Tree

/-!
Four ways to write a tree of texts. The description puts everything on one line and can be read
back; the outline has a line for each node; the two quoted forms keep apart values that read alike.
-/

namespace TurtleGraphics.Tree

mutual

/-- A value followed by its children in parentheses, as in `a(b c(d))`. -/
def describe : Tree String → String
  | node v [] => v
  | node v (t :: ts) => v ++ "(" ++ t.describe ++ describeRest ts ++ ")"

def describeRest : List (Tree String) → String
  | [] => ""
  | t :: ts => " " ++ t.describe ++ describeRest ts

end

def margin (width : Nat) : String :=
  "".pushn ' ' width

mutual

def outlineFrom (depth : Nat) : Tree String → String
  | node v ts => v ++ "\n" ++ outlineAll depth ts

def outlineAll (depth : Nat) : List (Tree String) → String
  | [] => ""
  | t :: ts => margin (2 * depth) ++ t.outlineFrom (depth + 1) ++ outlineAll depth ts

end

/-- Children are indented two blanks further than their parent. -/
def outline (t : Tree String) : String :=
  t.outlineFrom 1

mutual

/-- Values are quoted, and children stand in brackets, as in `"a"["b", "c"["d"]]`. -/
def quotedForm : Tree String → String
  | node v [] => Text.quoted v
  | node v (t :: ts) => Text.quoted v ++ "[" ++ t.quotedForm ++ quotedRest ts ++ "]"

def quotedRest : List (Tree String) → String
  | [] => ""
  | t :: ts => ", " ++ t.quotedForm ++ quotedRest ts

end

mutual

def quotedLinesFrom (width : Nat) : Tree String → String
  | node v [] => Text.quoted v
  | node v (t :: ts) =>
    Text.quoted v ++ "[\n" ++ margin (width + 4) ++ t.quotedLinesFrom (width + 4) ++ ",\n" ++
      quotedLinesAll (width + 4) ts ++ margin width ++ "]"

def quotedLinesAll (width : Nat) : List (Tree String) → String
  | [] => ""
  | t :: ts => margin width ++ t.quotedLinesFrom width ++ ",\n" ++ quotedLinesAll width ts

end

def quotedLines (t : Tree String) : String :=
  t.quotedLinesFrom 0

end TurtleGraphics.Tree
