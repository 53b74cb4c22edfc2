import TurtleGraphics.Proofs.Token.Tracking

/-!
No token and no comment goes past a line end. Whatever is open where the line ends is closed, and
what follows is read as a text of its own, except that its lines are counted on.
-/

namespace TurtleGraphics

namespace Lexeme

open Token (lineEnds)

def lowered (lines : Nat) (x : Lexeme) : Lexeme :=
  { x with line := x.line + lines }

theorem readFrom_lowered (keywords : List String) (lines line : Nat) (d : Token.Draft)
    (cs : List Char) :
    readFrom keywords (line + lines) d cs = (readFrom keywords line d cs).map (lowered lines) := by
  induction cs generalizing line d with
  | nil => simp [readFrom, lowered]
  | cons c cs ih =>
    have after : (if c == '\n' then line + lines + 1 else line + lines) =
        (if c == '\n' then line + 1 else line) + lines := by
      split <;> omega
    rw [readFrom, readFrom, after, ih, List.map_append, List.map_map]
    rfl

/-- What comes before a line end is read without a look at what comes after it. -/
theorem readFrom_newline (keywords : List String) (line : Nat) (d : Token.Draft) (a : List Char) :
    ∃ before, ∀ b, readFrom keywords line d (a ++ '\n' :: b) =
      before ++ readFrom keywords (line + lineEnds a + 1) .gap b := by
  induction a generalizing line d with
  | nil =>
    refine ⟨(d.close keywords ++ [Token.newline]).map (⟨·, line⟩), fun b => ?_⟩
    simp [readFrom, Token.Draft.next_newline, lineEnds]
  | cons c a ih =>
    obtain ⟨before, split⟩ :=
      ih (if c == '\n' then line + 1 else line) (d.next keywords c).2
    have counted : (if c == '\n' then line + 1 else line) + lineEnds a =
        line + lineEnds (c :: a) := by
      rw [lineEnds, lineEnds, List.count_cons]
      split <;> omega
    refine ⟨(d.next keywords c).1.map (⟨·, line⟩) ++ before, fun b => ?_⟩
    rw [List.cons_append, readFrom, split, counted, List.append_assoc]

theorem ofSource_newline (keywords : List String) (a : String) :
    ∃ before, ∀ b, ofSource keywords (a ++ "\n" ++ b) =
      before ++ (ofSource keywords b).map (lowered (lineEnds a.toList + 1)) := by
  obtain ⟨before, split⟩ := readFrom_newline keywords 1 .gap a.toList
  refine ⟨before, fun b => ?_⟩
  have chars : (a ++ "\n" ++ b).toList = a.toList ++ '\n' :: b.toList := by
    simp [String.toList_append]
  rw [ofSource, ofSource, chars, split, ← readFrom_lowered, Nat.add_assoc]

end Lexeme

namespace Feed

open Token (lineEnds)

/-- The lines that are reported while all tokens are delivered one after the other. -/
def tokenLines (f : Feed) : List Nat :=
  (List.range f.remaining.length).map fun place => f.lineAfter (place + 1)

theorem tokenLines_ofSource (keywords : List String) (source : String) :
    (ofSource keywords source).tokenLines =
      (Lexeme.ofSource keywords source).map (·.line) := by
  have stands : StandsAt (Lexeme.ofSource keywords source) .start (ofSource keywords source) :=
    .fresh
  apply List.ext_getElem
  · simp [tokenLines, remaining, ahead, ofSource]
  · intro place _ inside
    rw [List.length_map] at inside
    simp [tokenLines, stands.lineAfter inside, List.getElem?_eq_getElem inside]

/-- A line end is a boundary between tokens: the tokens before it are those of the text up to there
without its end, and the tokens after it are those of the text from there, on later lines. -/
theorem ofSource_newline_boundary (keywords : List String) (a b : String) :
    ∃ ts us,
      ((ofSource keywords (a ++ "\n")).use .tokenize).1 = .tokens (ts ++ [Token.theEnd]) ∧
      ((ofSource keywords b).use .tokenize).1 = .tokens us ∧
      ((ofSource keywords (a ++ "\n" ++ b)).use .tokenize).1 = .tokens (ts ++ us) ∧
      (ofSource keywords (a ++ "\n" ++ b)).tokenLines =
        (ofSource keywords (a ++ "\n")).tokenLines.take ts.length ++
          (ofSource keywords b).tokenLines.map (· + (lineEnds a.toList + 1)) := by
  obtain ⟨before, split⟩ := Lexeme.ofSource_newline keywords a
  have first : Lexeme.ofSource keywords (a ++ "\n") =
      before ++ [⟨Token.theEnd, 1 + (lineEnds a.toList + 1)⟩] := by
    have whole := split ""
    rwa [String.append_empty] at whole
  refine ⟨before.map (·.token), (Lexeme.ofSource keywords b).map (·.token), ?_, rfl, ?_, ?_⟩
  · simp [use, remaining, ahead, ofSource, first]
  · simp [use, remaining, ahead, ofSource, split, Lexeme.lowered]
  · simp only [tokenLines_ofSource, first, split]
    simp [Lexeme.lowered]

-- A comment ends with its line, and a word before a line end does not go on after it.
example : ((ofSource ["set"] ("// set\nset" ++ "\n" ++ "ting")).use .tokenize).1 =
    .tokens [Token.newline, ⟨.keyword, "set"⟩, Token.newline, ⟨.name, "ting"⟩, Token.theEnd] := by
  decide +kernel

end Feed

end TurtleGraphics
