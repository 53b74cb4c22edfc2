/-!
Options and the name of a file, read from left to right. Asking for help ends the reading, and what
has been said of a file is forgotten.
-/

namespace TurtleGraphics.CommandLine

structure Options where
  tokens : Bool
  plain : Bool
  tree : Bool
  json : Bool
  verbose : Bool
  speed : Option Nat
  file : Option String
deriving DecidableEq

def Options.none : Options :=
  ⟨false, false, false, false, false, .none, .none⟩

inductive NumberError
  | empty
  | invalidDigit
  | tooLarge
deriving DecidableEq

inductive OptionError
  | missingSpeed
  | invalidSpeed (text : String) (e : NumberError)
  | speedRange (speed : Nat)
  | unknownOption (text : String)
  | secondFile
deriving DecidableEq

def NumberError.message : NumberError → String
  | empty => "cannot parse integer from empty string"
  | invalidDigit => "invalid digit found in string"
  | tooLarge => "number too large to fit in target type"

def OptionError.message : OptionError → String × Option String
  | missingSpeed => ("Missing value after --speed", none)
  | invalidSpeed text e => ("Invalid speed '" ++ text ++ "'", some e.message)
  | speedRange speed => ("Speed must be between 0 and 100, got " ++ toString speed, none)
  | unknownOption text => ("Unknown option '" ++ text ++ "'", none)
  | secondFile => ("Only one input file is supported", none)

/-- Digits are read from the left, and the first fault is the one that counts. -/
def byteFrom (n : Nat) : List Char → Except NumberError Nat
  | [] => .ok n
  | c :: cs =>
    if c.isDigit then
      let next := 10 * n + (c.toNat - '0'.toNat)
      if 255 < next then .error .tooLarge else byteFrom next cs
    else .error .invalidDigit

/-- A number from 0 to 255, which may have a plus sign. -/
def byte (text : String) : Except NumberError Nat :=
  match text.toList with
  | [] => .error .empty
  | ['+'] => .error .invalidDigit
  | '+' :: cs => byteFrom 0 cs
  | cs => byteFrom 0 cs

def speed (text : String) : Except OptionError Nat := do
  match byte text with
  | .error e => throw (.invalidSpeed text e)
  | .ok n =>
    if 100 < n then throw (.speedRange n)
    return n

def readFrom (o : Options) : List String → Except OptionError Options
  | [] => .ok o
  | "--speed" :: [] => .error .missingSpeed
  | "--speed" :: value :: rest => do readFrom { o with speed := some (← speed value) } rest
  | word :: rest =>
    if word = "--tokens" then readFrom { o with tokens := true } rest
    else if word = "--no-color" then readFrom { o with plain := true } rest
    else if word = "--ast" then readFrom { o with tree := true } rest
    else if word = "--json" then readFrom { o with json := true } rest
    else if word = "--verbose" ∨ word = "-v" then readFrom { o with verbose := true } rest
    else if word = "--help" ∨ word = "-h" then .ok { o with file := none }
    else if word.startsWith "-" then .error (.unknownOption word)
    else if o.file.isSome then .error .secondFile
    else readFrom { o with file := some word } rest

def read (words : List String) : Except OptionError Options :=
  readFrom .none words

end TurtleGraphics.CommandLine
