/-!
Values of a data file and their two forms: all on one line without blanks, or a line for each part
with two blanks of indentation for each level.
-/

namespace TurtleGraphics

inductive Data
  /-- a number or another value that is written as it is -/
  | bare (text : String)
  /-- letters and underscores between quotes; nothing in them needs an escape -/
  | word (text : String)
  | record (fields : List (String × Data))
  | list (items : List Data)

namespace Data

def quote (text : String) : String :=
  "\"" ++ text ++ "\""

def field (name : String) (separator value : String) : String :=
  quote name ++ separator ++ value

mutual

def compact : Data → String
  | bare text => text
  | word text => quote text
  | record fields => "\x7b" ++ ",".intercalate (compactFields fields) ++ "\x7d"
  | list items => "[" ++ ",".intercalate (compactItems items) ++ "]"

def compactFields : List (String × Data) → List String
  | [] => []
  | (name, d) :: rest => field name ":" d.compact :: compactFields rest

def compactItems : List Data → List String
  | [] => []
  | d :: rest => d.compact :: compactItems rest

end

def indent (level : Nat) : String :=
  "".pushn ' ' (2 * level)

/-- Each part on a line of its own between two brackets; no part, no line. -/
def enclose (level : Nat) (opening closing : String) (parts : List String) : String :=
  if parts.isEmpty then opening ++ closing
  else
    let inner := indent (level + 1)
    opening ++ "\n" ++ inner ++ (",\n" ++ inner).intercalate parts ++ "\n" ++
      indent level ++ closing

mutual

def prettyFrom (level : Nat) : Data → String
  | bare text => text
  | word text => quote text
  | record fields => enclose level "\x7b" "\x7d" (prettyFields (level + 1) fields)
  | list items => enclose level "[" "]" (prettyItems (level + 1) items)

def prettyFields (level : Nat) : List (String × Data) → List String
  | [] => []
  | (name, d) :: rest => field name ": " (d.prettyFrom level) :: prettyFields level rest

def prettyItems (level : Nat) : List Data → List String
  | [] => []
  | d :: rest => d.prettyFrom level :: prettyItems level rest

end

def pretty (d : Data) : String :=
  d.prettyFrom 0

end Data

end TurtleGraphics
