import TurtleGraphics.Text.CharClass
import TurtleGraphics.Token.Literal

/-!
A draft is the token being read, if any. A character either joins the draft or closes it and is
read again with no draft open. A comment runs up to the next line end and yields nothing.
-/

namespace TurtleGraphics.Token

open Text

inductive Draft
  | gap
  | slash
  | comment
  | word (read : List Char)
  | literal (stage : Stage) (read : List Char)
deriving DecidableEq

def startsWord (c : Char) : Bool :=
  isAlphabetic c || c == '_'

def joinsWord (c : Char) : Bool :=
  isAlphabetic c || isNumeric c || c == '_'

def ofWord (keywords : List String) (text : String) : Token :=
  ⟨if keywords.contains text then .keyword else .name, text⟩

namespace Draft

def text (read : List Char) : String :=
  String.ofList read.reverse

def start (c : Char) : List Token × Draft :=
  if c == '\n' then ([newline], gap)
  else if isBlank c then ([], gap)
  else if startsWord c then ([], word [c])
  else if c.isDigit then ([], literal .whole [c])
  else if c == '.' then ([], literal .dot [c])
  else if c == '/' then ([], slash)
  else ([⟨.symbol, c.toString⟩], gap)

def close (keywords : List String) : Draft → List Token
  | gap => []
  | slash => [⟨.symbol, "/"⟩]
  | comment => []
  | word read => [ofWord keywords (text read)]
  | literal stage read => [⟨stage.kind, text read⟩]

def restart (keywords : List String) (d : Draft) (c : Char) : List Token × Draft :=
  (d.close keywords ++ (start c).1, (start c).2)

/-- The tokens that a character completes, and the draft after it. -/
def next (keywords : List String) (d : Draft) (c : Char) : List Token × Draft :=
  match d with
  | gap => start c
  | slash => if c == '/' then ([], comment) else slash.restart keywords c
  | comment => if c == '\n' then ([newline], gap) else ([], comment)
  | word read => if joinsWord c then ([], word (c :: read)) else (word read).restart keywords c
  | literal stage read =>
    match stage.next c with
    | .more further => ([], literal further (c :: read))
    | .last kind => ([⟨kind, text (c :: read)⟩], gap)
    | .stop => (literal stage read).restart keywords c

end Draft

end TurtleGraphics.Token
