import TurtleGraphics.CommandLine.Reply

/-! The program: reads the file that its arguments name, prints the reply and reports a failure. -/

namespace TurtleGraphics.CommandLine

/-- No run is longer than this. -/
def limit : Nat :=
  1000000000000000

/-- A name that is too long comes with error number 36, which some calls give negated. -/
def readError (e : IO.Error) : ReadError :=
  match e with
  | .noFileOrDirectory .. => .missing
  | .inappropriateType .. => .notFolder
  | .invalidArgument _ code _ =>
    if code = 36 ∨ code = -36 then .nameTooLong else .other (toString e)
  | e => .other (toString e)

def openFile (words : List String) : IO (String → Except ReadError String) := do
  match request words with
  | .ok (.process file _) =>
    try
      let text ← IO.FS.readFile file
      return fun _ => .ok text
    catch e => return fun _ => .error (readError e)
  | _ => return fun _ => .error .missing

def finish (exit : Exit) : IO UInt32 := do
  IO.print exit.output
  IO.eprint exit.report
  return exit.code

end TurtleGraphics.CommandLine

open TurtleGraphics.CommandLine in
def main (words : List String) : IO UInt32 := do
  match respond limit (← openFile words) words with
  | none => return 0
  | some r => finish (.of r)
