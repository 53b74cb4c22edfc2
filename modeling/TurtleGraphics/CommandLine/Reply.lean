import TurtleGraphics.CommandLine.Options
import TurtleGraphics.CommandLine.Path
import TurtleGraphics.Program
import TurtleGraphics.Turtle.Sketch

/-!
What the program does with its arguments: it shows how it is used, the tokens or the tree of a file,
or what the file draws. A failure prints nothing but its report.
-/

namespace TurtleGraphics.CommandLine

inductive Failure
  | options (e : OptionError)
  | extension (file : String)
  | unreadable (file : String) (e : ReadError)
  | unread (e : SyntaxError)
  | failed (e : RuntimeError)
deriving DecidableEq

def Failure.message : Failure → String × Option String
  | options e => e.message
  | extension file => ("expected a .logo file, got " ++ file, none)
  | unreadable file e => ("Failed to read '" ++ file ++ "'", some e.message)
  | unread e => ("Parse error", some e.message)
  | failed e => ("Runtime error", some e.message)

def Failure.report (f : Failure) : String :=
  match f.message with
  | (text, none) => "Error: " ++ text ++ "\n"
  | (text, some cause) => "Error: " ++ text ++ "\n\nCaused by:\n    " ++ cause ++ "\n"

def usage : String :=
  "TURTLE - turtle graphics interpreter\n" ++
  "\n" ++
  "Usage:\n" ++
  "  turtle <file.logo>              Run a program and print what it draws\n" ++
  "  turtle --json <file.logo>       Print the drawing as JSON\n" ++
  "  turtle --speed N <file.logo>    Drawing speed 0-100 (default 100)\n" ++
  "  turtle --tokens <file.logo>     Show tokens only (--no-color for plain)\n" ++
  "  turtle --ast <file.logo>        Show the parse tree\n" ++
  "  turtle --verbose <file.logo>    Log run progress to stderr\n" ++
  "  turtle --help, -h               Show this help\n"

inductive Request
  | usage
  | process (file : String) (o : Options)
deriving DecidableEq

def request (words : List String) : Except Failure Request :=
  match read words with
  | .error e => .error (.options e)
  | .ok o => match o.file with
    | none => .ok .usage
    | some file =>
      if CommandLine.extension file = some "logo" then .ok (.process file o)
      else .error (.extension file)

def colorCode : Token.Kind → String
  | .endOfLine | .endOfInput => "\x1b[2m"
  | .number => "\x1b[36m"
  | .name => "\x1b[33m"
  | .keyword => "\x1b[34m"
  | .symbol => "\x1b[35m"
  | .error => "\x1b[31m"

def padLeft (width : Nat) (text : String) : String :=
  "".pushn '0' (width - text.length) ++ text

def padRight (width : Nat) (text : String) : String :=
  text.pushn ' ' (width - text.length)

def listingLine (colored : Bool) (x : Lexeme) : String :=
  "[" ++ padLeft 3 (toString x.line) ++ "] " ++
    (if colored then colorCode x.token.kind else "") ++
    padRight 8 x.token.kind.label ++ " " ++ x.token.display ++
    (if colored then "\x1b[0m" else "")

def listing (colored : Bool) (xs : List Lexeme) : String :=
  String.join (xs.map fun x => listingLine colored x ++ "\n")

def drawing (json : Bool) (strokes : List Stroke) : String :=
  if json then (Stroke.dataOf strokes).pretty ++ "\n"
  else String.join (strokes.map fun s => s.display ++ "\n")

/-- What is printed of a program's text; `none` if its run does not end within the limit or at
all. -/
def process (limit : Nat) (o : Options) (source : String) : Option (Except Failure String) :=
  if o.tokens then some (.ok (listing (!o.plain) (Lexeme.ofSource keywords source)))
  else match Program.parse source with
    | .error e => some (.error (.unread e))
    | .ok p =>
      if o.tree then some (.ok p.outline)
      else
        let pace := Pace.new (o.speed.getD Pace.fastest) false
        match p.run limit (.new (Stage.quiet Sketch.blank pace)) with
        | .going _ | .ended .held _ => none
        | .ended (.failed e) _ => some (.error (.failed e))
        | .ended _ m => some (.ok (drawing o.json m.host.turtle.strokes.toList))

def Request.answer (limit : Nat) (open? : String → Except ReadError String) :
    Request → Option (Except Failure String)
  | .usage => some (.ok CommandLine.usage)
  | .process file o => match open? file with
    | .error e => some (.error (.unreadable file e))
    | .ok source => CommandLine.process limit o source

def respond (limit : Nat) (open? : String → Except ReadError String) (words : List String) :
    Option (Except Failure String) :=
  match request words with
  | .error e => some (.error e)
  | .ok r => r.answer limit open?

def reply (limit : Nat) (folder : Folder) (words : List String) :
    Option (Except Failure String) :=
  respond limit folder.read words

structure Exit where
  code : UInt32
  output : String
  report : String
deriving DecidableEq

def Exit.of : Except Failure String → Exit
  | .ok text => ⟨0, text, ""⟩
  | .error f => ⟨1, "", f.report⟩

end TurtleGraphics.CommandLine
