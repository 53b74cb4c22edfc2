import TurtleGraphics.Token.Draft

/-!
The tokens of a source text, each with the line on which it starts. The list always ends with the
end of input, and no other token is one.
-/

namespace TurtleGraphics

structure Lexeme where
  token : Token
  line : Nat
deriving DecidableEq

namespace Lexeme

def lineAfter (x : Lexeme) : Nat :=
  match x.token.kind with
  | .endOfLine => x.line + 1
  | _ => x.line

/-- Reads on from a draft. A token never spans a line end, so what a character completes starts on
the line of that character. -/
def readFrom (keywords : List String) (line : Nat) (d : Token.Draft) : List Char → List Lexeme
  | [] => (d.close keywords ++ [Token.theEnd]).map (⟨·, line⟩)
  | c :: cs =>
    let step := d.next keywords c
    let after := if c == '\n' then line + 1 else line
    step.1.map (⟨·, line⟩) ++ readFrom keywords after step.2 cs

def ofSource (keywords : List String) (source : String) : List Lexeme :=
  readFrom keywords 1 .gap source.toList

theorem ofSource_ne_nil (keywords : List String) (source : String) :
    ofSource keywords source ≠ [] := by
  suffices h : ∀ cs line d, readFrom keywords line d cs ≠ [] from h _ _ _
  intro cs
  induction cs with
  | nil => intro line d; simp [readFrom]
  | cons c cs ih => intro line d; simp [readFrom, ih]

end Lexeme

end TurtleGraphics
