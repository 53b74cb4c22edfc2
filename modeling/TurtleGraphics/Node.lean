import TurtleGraphics.Palette
import TurtleGraphics.Token

/-!
The nodes of a program's tree. A node keeps the token it was made from; what it means is its kind,
fixed when the node is made. Four kinds only group other nodes and stand for no token of a source.
-/

namespace TurtleGraphics

inductive Node.Kind
  | program | block | list | header
  /-- `def` -/
  | definition
  | forward | left | right | face | home | jump
  | penUp | penDown | color
  | namedColor (color : Palette)
  /-- `set` -/
  | assign
  /-- `repeat` -/
  | times
  /-- `while` -/
  | loop
  /-- `if` -/
  | branch
  /-- `do` -/
  | call
  | number | name | getX | getY
  | add | sub | mul | div
  | less | equal | greater
  /-- tokens that only delimit -/
  | punctuation
deriving DecidableEq

def keywords : List String :=
  ["penup", "pendown", "home", "jump", "set", "repeat", "while", "if", "else", "do", "forward",
   "left", "right", "face", "red", "orange", "yellow", "green", "cyan", "blue", "purple",
   "magenta", "pink", "olive", "black", "gray", "white", "brown", "tan", "color", "def", "getX",
   "getY"]

structure Node where
  kind : Node.Kind
  token : Token
deriving DecidableEq

namespace Node

namespace Kind

def title : Palette → String
  | .red => "Red"
  | .orange => "Orange"
  | .yellow => "Yellow"
  | .green => "Green"
  | .cyan => "Cyan"
  | .blue => "Blue"
  | .purple => "Purple"
  | .magenta => "Magenta"
  | .pink => "Pink"
  | .olive => "Olive"
  | .black => "Black"
  | .gray => "Gray"
  | .white => "White"
  | .brown => "Brown"
  | .tan => "Tan"

def label : Kind → String
  | program => "Program"
  | block => "Block"
  | list => "List"
  | header => "Header"
  | definition => "Def"
  | forward => "Forward"
  | left => "Left"
  | right => "Right"
  | face => "Face"
  | home => "Home"
  | jump => "Jump"
  | penUp => "PenUp"
  | penDown => "PenDown"
  | color => "Color"
  | namedColor c => "NamedColor(" ++ title c ++ ")"
  | assign => "Set"
  | times => "Repeat"
  | loop => "While"
  | branch => "If"
  | call => "Do"
  | number => "Number"
  | name => "Name"
  | getX => "GetX"
  | getY => "GetY"
  | add => "Add"
  | sub => "Sub"
  | mul => "Mul"
  | div => "Div"
  | less => "Less"
  | equal => "Equal"
  | greater => "Greater"
  | punctuation => "Punctuation"

def all : List Kind :=
  [program, block, list, header, definition, forward, left, right, face, home, jump, penUp, penDown,
   color] ++ Palette.all.map namedColor ++
  [assign, times, loop, branch, call, number, name, getX, getY, add, sub, mul, div, less, equal,
   greater, punctuation]

def ofLabel? (label : String) : Option Kind :=
  all.find? (·.label == label)

/-- What a reserved word means; `else` only delimits. -/
def ofKeyword (word : String) : Kind :=
  match word with
  | "forward" => forward
  | "left" => left
  | "right" => right
  | "face" => face
  | "home" => home
  | "jump" => jump
  | "penup" => penUp
  | "pendown" => penDown
  | "color" => color
  | "set" => assign
  | "repeat" => times
  | "while" => loop
  | "if" => branch
  | "do" => call
  | "def" => definition
  | "getX" => getX
  | "getY" => getY
  | word => (Palette.ofName? word).elim punctuation namedColor

def ofSymbol (symbol : String) : Kind :=
  match symbol with
  | "+" => add
  | "-" => sub
  | "*" => mul
  | "/" => div
  | "<" => less
  | "=" => equal
  | ">" => greater
  | _ => punctuation

/-- What a token of a source means. No token means one of the four grouping kinds. -/
def ofToken (t : Token) : Kind :=
  match t.kind with
  | .number => number
  | .name => name
  | .keyword => ofKeyword t.text
  | .symbol => ofSymbol t.text
  | .endOfLine | .endOfInput | .error => punctuation

end Kind

inductive Group
  | program | block | list | header
deriving DecidableEq

def Group.kind : Group → Kind
  | program => .program
  | block => .block
  | list => .list
  | header => .header

def Group.name : Group → String
  | program => "program"
  | block => "block"
  | list => "list"
  | header => "header"

def Kind.group? : Kind → Option Group
  | program => some .program
  | block => some .block
  | list => some .list
  | header => some .header
  | _ => none

def ofToken (t : Token) : Node :=
  ⟨.ofToken t, t⟩

/-- Its token is a name that spells the kind. -/
def ofGroup (g : Group) : Node :=
  ⟨g.kind, ⟨.name, g.name⟩⟩

inductive Error
  | notStructural (kind : Kind)
deriving DecidableEq

def Error.message : Error → String
  | notStructural kind => kind.label ++ " is not a structural tag"

def tag (k : Kind) : Except Error Node :=
  match k.group? with
  | some g => .ok (ofGroup g)
  | none => .error (.notStructural k)

def text (n : Node) : String :=
  n.token.text

def display (n : Node) : String :=
  n.token.display

end Node

end TurtleGraphics
