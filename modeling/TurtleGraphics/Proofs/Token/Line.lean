import TurtleGraphics.Proofs.Token.Partition

/-!
The line of a token is one more than the number of line ends before it. Each token starts on the
line on which the one before it left off, and only the token of a line end spans a line end.
-/

namespace TurtleGraphics

namespace Token.Draft

variable {keywords : List String}

/-- No token but the one of a line end is one. -/
theorem close_kind (d : Draft) : ∀ t ∈ d.close keywords, t.kind ≠ .endOfLine := by
  intro t member
  cases d with
  | gap | comment => cases member
  | slash =>
    obtain rfl := List.mem_singleton.mp member
    decide
  | word read =>
    obtain rfl := List.mem_singleton.mp member
    unfold ofWord
    split <;> exact Kind.noConfusion
  | literal stage read =>
    obtain rfl := List.mem_singleton.mp member
    cases stage <;> exact Kind.noConfusion

theorem start_kind {c : Char} (other : c ≠ '\n') : ∀ t ∈ (start c).1, t.kind ≠ .endOfLine := by
  intro t member
  unfold start at member
  simp only [beq_iff_eq, if_neg other] at member
  repeat' split at member
  all_goals simp at member
  subst member
  exact Kind.noConfusion

/-- A line end closes what is open and is a token of its own. -/
theorem next_newline (d : Draft) :
    d.next keywords '\n' = (d.close keywords ++ [newline], gap) := by
  have joins : joinsWord '\n' = false := by decide +kernel
  cases d with
  | gap | slash | comment => rfl
  | word read =>
    simp only [next, joins]
    rfl
  | literal stage read =>
    simp only [next, Stage.next_newline]
    rfl

theorem next_kind {c : Char} (other : c ≠ '\n') (d : Draft) :
    ∀ t ∈ (d.next keywords c).1, t.kind ≠ .endOfLine := by
  have restarted : ∀ d : Draft, ∀ t ∈ (d.restart keywords c).1, t.kind ≠ .endOfLine := by
    intro d t member
    rcases List.mem_append.mp member with closed | started
    · exact d.close_kind t closed
    · exact start_kind other t started
  intro t member
  cases d with
  | gap => exact start_kind other t member
  | slash =>
    simp only [next] at member
    split at member
    · cases member
    · exact restarted _ t member
  | comment =>
    simp only [next, beq_iff_eq, if_neg other] at member
    cases member
  | word read =>
    simp only [next] at member
    split at member
    · cases member
    · exact restarted _ t member
  | literal stage read =>
    simp only [next] at member
    split at member
    · cases member
    · rename_i kind last
      obtain rfl := List.mem_singleton.mp member
      rcases Stage.last_numeric last with same | same
      · simp [same]
      · simp [same]
    · exact restarted _ t member

end Token.Draft

namespace Lexeme

/-- The tokens start on this line and each goes on where the one before it left off. -/
def Lined (line : Nat) : List Lexeme → Prop
  | [] => True
  | x :: xs => x.line = line ∧ Lined x.lineAfter xs

theorem lined_append {line : Nat} {ts : List Token} (other : ∀ t ∈ ts, t.kind ≠ .endOfLine)
    {xs : List Lexeme} (further : Lined line xs) : Lined line (ts.map (⟨·, line⟩) ++ xs) := by
  induction ts with
  | nil => exact further
  | cons t ts ih =>
    have same : (⟨t, line⟩ : Lexeme).lineAfter = line := by
      have kind := other t (by simp)
      unfold lineAfter
      split
      · contradiction
      · rfl
    refine ⟨rfl, ?_⟩
    rw [same]
    exact ih fun u member => other u (by simp [member])

theorem lined_readFrom (keywords : List String) (line : Nat) (d : Token.Draft) (cs : List Char) :
    Lined line (readFrom keywords line d cs) := by
  induction cs generalizing line d with
  | nil =>
    have last : Lined line [⟨Token.theEnd, line⟩] := ⟨rfl, trivial⟩
    simpa [readFrom] using lined_append d.close_kind last
  | cons c cs ih =>
    by_cases newline : c = '\n'
    · subst newline
      have rest : Lined line (⟨Token.newline, line⟩ :: readFrom keywords (line + 1) .gap cs) :=
        ⟨rfl, ih (line + 1) .gap⟩
      simpa [readFrom, Token.Draft.next_newline] using lined_append d.close_kind rest
    · simpa [readFrom, newline] using lined_append (Token.Draft.next_kind newline d) (ih line _)

end Lexeme

namespace Token

def lineEnds (cs : List Char) : Nat :=
  cs.count '\n'

variable {keywords : List String}

theorem Piece.Fits.lineEnds {p : Piece} {after : List Char} (fits : p.Fits keywords after) :
    lineEnds p.chars = if p.token.kind = .endOfLine then 1 else 0 := by
  have gap : p.gap.count '\n' = 0 := List.count_eq_zero.mpr fits.gapLine
  rw [Token.lineEnds, Piece.chars, List.count_append, gap, Nat.zero_add]
  split
  · rename_i line
    rw [fits.lineEnd line]
    rfl
  · rename_i other
    exact List.count_eq_zero.mpr (fits.tokenLine other)

end Token

namespace Lexeme

variable {keywords : List String}

/-- Reading goes on after the line ends of the piece. -/
theorem lineAfter_eq {x : Lexeme} {p : Token.Piece} {after : List Char}
    (fits : p.Fits keywords after) (same : p.token = x.token) :
    x.lineAfter = x.line + Token.lineEnds p.chars := by
  have kind : p.token.kind = x.token.kind := congrArg Token.kind same
  rw [fits.lineEnds, kind]
  unfold lineAfter
  split
  · rename_i newline
    rw [if_pos newline]
  · rename_i other
    rw [if_neg other]
    rfl

/-- The line of a token that follows pieces of a text is told by the line ends in them. -/
theorem Lined.line {line : Nat} {before after : List Token.Piece} {p : Token.Piece}
    {passed pending : List Lexeme} {x : Lexeme} (lined : Lined line (passed ++ x :: pending))
    (tokens : before.map (·.token) = passed.map (·.token))
    (fits : ∀ b q a, before ++ p :: after = b ++ q :: a →
      q.Fits keywords (a.flatMap Token.Piece.chars)) :
    x.line = line + Token.lineEnds (before.flatMap Token.Piece.chars ++ p.gap) := by
  induction passed generalizing line before with
  | nil =>
    obtain rfl := List.map_eq_nil_iff.mp tokens
    have gap : p.gap.count '\n' = 0 := List.count_eq_zero.mpr (fits [] p after rfl).gapLine
    rw [Token.lineEnds, List.flatMap_nil, List.nil_append, gap]
    exact lined.1
  | cons y passed ih =>
    cases before with
    | nil => cases tokens
    | cons q before =>
      obtain ⟨same, others⟩ := List.cons.inj tokens
      have later := ih lined.2 others fun b r a split => fits (q :: b) r a (by simp [split])
      have start : y.line = line := lined.1
      have goesOn : y.lineAfter = line + Token.lineEnds q.chars :=
        start ▸ lineAfter_eq (fits [] q _ rfl) same
      rw [later, goesOn, Nat.add_assoc]
      simp [Token.lineEnds]

/-- In a source that is cut up into pieces, a token is on the line after the line ends before it. -/
theorem line_ofSource {source : String} {before after : List Token.Piece} {p : Token.Piece}
    {passed pending : List Lexeme} {x : Lexeme}
    (split : ofSource keywords source = passed ++ x :: pending)
    (parts : Token.Partition keywords source.toList (before ++ p :: after))
    (tokens : before.map (·.token) = passed.map (·.token)) :
    x.line = 1 + Token.lineEnds (before.flatMap Token.Piece.chars ++ p.gap) := by
  have lined : Lined 1 (passed ++ x :: pending) :=
    split ▸ lined_readFrom keywords 1 .gap source.toList
  exact lined.line tokens parts.fits

end Lexeme

end TurtleGraphics
