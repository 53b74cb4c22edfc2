/-!
A token is a category and the text it was read from. A number keeps its text: `1.5e3f` is a token
of its own, and its value is read where it is needed.
-/

namespace TurtleGraphics

inductive Token.Kind
  | name | keyword | number | symbol | endOfLine | endOfInput | error
deriving DecidableEq

structure Token where
  kind : Token.Kind
  text : String
deriving DecidableEq

namespace Token

def Kind.all : List Kind :=
  [.name, .keyword, .number, .symbol, .endOfLine, .endOfInput, .error]

def Kind.label : Kind → String
  | name => "NAME"
  | keyword => "KEYWORD"
  | number => "NUMBER"
  | symbol => "SYMBOL"
  | endOfLine => "EOL"
  | endOfInput => "EOI"
  | error => "ERROR"

def Kind.ofLabel? (label : String) : Option Kind :=
  all.find? (·.label == label)

theorem Kind.ofLabel?_label (k : Kind) : ofLabel? k.label = some k := by
  cases k <;> decide +kernel

def newline : Token := ⟨.endOfLine, "\n"⟩

def theEnd : Token := ⟨.endOfInput, ""⟩

/-- How a token reads in a message: a line end as a backslash and `n`, the end of input as `EOI`. -/
def display (t : Token) : String :=
  match t.kind with
  | .endOfLine => "\\n"
  | .endOfInput => "EOI"
  | _ => t.text

def is (t : Token) (kind : Kind) (text : String) : Bool :=
  t.kind == kind && t.text == text

end Token

end TurtleGraphics
