import TurtleGraphics.Proofs.Token.Cursor
import TurtleGraphics.Proofs.Token.Line

/-!
The lines a feed reports are told by the part of the source that has been consumed: the line reached
by the line ends in all of it, the line of a token by those before the token. As a feed never
consumes less, the reported lines never decrease.
-/

namespace TurtleGraphics

namespace Token

def consumed (pieces : List Piece) (count : Nat) : List Char :=
  (pieces.take count).flatMap Piece.chars

theorem consumed_length (before after : List Piece) :
    consumed (before ++ after) before.length = before.flatMap Piece.chars := by
  rw [consumed, List.take_left]

theorem consumed_succ {before after : List Piece} {p : Piece} :
    consumed (before ++ p :: after) (before.length + 1) =
      consumed (before ++ p :: after) before.length ++ p.chars := by
  have longer := consumed_length (before ++ [p]) after
  rw [consumed_length]
  simpa using longer

theorem lineEnds_append (cs ds : List Char) : lineEnds (cs ++ ds) = lineEnds cs + lineEnds ds :=
  List.count_append

/-- The more has been consumed, the more line ends are in it. -/
theorem lineEnds_consumed_mono (pieces : List Piece) {few many : Nat} (le : few ≤ many) :
    lineEnds (consumed pieces few) ≤ lineEnds (consumed pieces many) := by
  have longer : pieces.take many = pieces.take few ++ (pieces.drop few).take (many - few) := by
    rw [← List.take_add, Nat.add_sub_cancel' le]
  rw [consumed, consumed, longer, List.flatMap_append, lineEnds_append]
  exact Nat.le_add_right _ _

namespace Partition

variable {keywords : List String} {source : List Char} {before after : List Piece} {p : Piece}

/-- No line ends in the gap before a token. -/
theorem lineEnds_gap (parts : Partition keywords source (before ++ p :: after)) :
    lineEnds (before.flatMap Piece.chars ++ p.gap) =
      lineEnds (consumed (before ++ p :: after) before.length) := by
  have gap : lineEnds p.gap = 0 := List.count_eq_zero.mpr (parts.fits before p after rfl).gapLine
  rw [lineEnds_append, gap, consumed_length, Nat.add_zero]

/-- The end of input comes after all that is in the source. -/
theorem endOfInput_last (parts : Partition keywords source (before ++ p :: after))
    (last : p.token.kind = .endOfInput) : after = [] := by
  obtain ⟨others, gap, same, kinds⟩ := parts.last
  rcases List.eq_nil_or_concat after with none | ⟨front, x, rfl⟩
  · exact none
  · have init : before ++ p :: front = others := by
      have split : (before ++ p :: front) ++ [x] = others ++ [⟨gap, theEnd⟩] := by
        simpa using same
      exact (List.append_inj' split rfl).1
    exact absurd last (kinds p (by simp [← init]))

end Partition

end Token

namespace Lexeme

open Token (Piece lineEnds consumed)

variable {keywords : List String} {source : String} {pieces : List Piece}

theorem exists_piece {before after : List Lexeme} {x : Lexeme}
    (same : pieces.map (·.token) = (before ++ x :: after).map (·.token)) :
    ∃ bs p as, pieces = bs ++ p :: as ∧ bs.map (·.token) = before.map (·.token) ∧
      p.token = x.token := by
  rw [List.map_append, List.map_cons] at same
  obtain ⟨bs, others, rfl, front, rest⟩ := List.map_eq_append_iff.mp same
  obtain ⟨p, as, rfl, token, -⟩ := List.map_eq_cons_iff.mp rest
  exact ⟨bs, p, as, rfl, front, token⟩

/-- A token starts after what the pieces before it take up, and reading goes on after its own. -/
theorem lines_ofSource {before after : List Lexeme} {x : Lexeme}
    (parts : Token.Partition keywords source.toList pieces)
    (same : pieces.map (·.token) = (ofSource keywords source).map (·.token))
    (whole : ofSource keywords source = before ++ x :: after) :
    x.line = 1 + lineEnds (consumed pieces before.length) ∧
      x.lineAfter = 1 + lineEnds (consumed pieces (before.length + 1)) := by
  obtain ⟨bs, p, as, rfl, front, token⟩ := exists_piece (whole ▸ same)
  have length : bs.length = before.length := by simpa using congrArg List.length front
  have line := line_ofSource whole parts front
  have goesOn := lineAfter_eq (parts.fits bs p as rfl) token
  rw [parts.lineEnds_gap] at line
  constructor
  · rw [line, length]
  · rw [goesOn, line, ← length, Token.consumed_succ, Token.lineEnds_append, Nat.add_assoc]

end Lexeme

/-- However the cursor is used, the token delivered last is never an earlier one than before. -/
theorem Cursor.latest_le_use (ts : List Token) (c : Cursor) (u : Feed.Use) :
    c.latest ≤ (c.use ts u).2.latest := by
  obtain ⟨place, last⟩ := c
  have within : Cursor.latest ⟨place, last⟩ ≤ place + 1 := by
    cases last <;> simp [latest]
  cases u with
  | next | nextToken =>
    unfold use
    dsimp only
    split
    · exact within
    · exact Nat.le_refl _
  | pushBack =>
    cases last with
    | nothing | pushBack => exact Nat.le_refl _
    | delivery =>
      simp only [use, pushedBack, latest]
      omega
  | tokenize =>
    unfold use
    dsimp only
    split
    · rename_i inside
      exact Nat.le_trans within inside
    · exact Nat.le_refl _

theorem Cursor.latest_le_useAll (ts : List Token) (c : Cursor) (us : List Feed.Use) :
    c.latest ≤ (c.useAll ts us).latest := by
  induction us generalizing c with
  | nil => exact Nat.le_refl _
  | cons u us ih => exact Nat.le_trans (c.latest_le_use ts u) (ih _)

/-- A token is delivered only from the place of the cursor. -/
theorem Cursor.use_eq_token {ts : List Token} {u : Feed.Use} {t : Token} (c : Cursor)
    (answer : (c.use ts u).1 = .token t) :
    ts[c.place]? = some t ∧ (c.use ts u).2 = ⟨c.place + 1, .delivery⟩ := by
  cases u with
  | pushBack | tokenize => cases answer
  | next | nextToken =>
    unfold Cursor.use at answer ⊢
    dsimp only at answer ⊢
    split at answer
    · rename_i u there
      cases answer
      exact ⟨there, rfl⟩
    · cases answer

namespace Feed

open Token (Piece lineEnds consumed)

variable {keywords : List String} {source : String} {pieces : List Piece} {c : Cursor} {f : Feed}

namespace StandsAt

theorem line_eq (stands : StandsAt (Lexeme.ofSource keywords source) c f)
    (parts : Token.Partition keywords source.toList pieces)
    (same : pieces.map (·.token) = (Lexeme.ofSource keywords source).map (·.token)) :
    f.line = 1 + lineEnds (consumed pieces c.latest) := by
  generalize source_eq : Lexeme.ofSource keywords source = xs at stands
  cases stands with
  | fresh => rfl
  | delivered whole | due whole =>
    exact (Lexeme.lines_ofSource parts same (source_eq.trans whole)).2

theorem tokenLine_eq (stands : StandsAt (Lexeme.ofSource keywords source) c f)
    (parts : Token.Partition keywords source.toList pieces)
    (same : pieces.map (·.token) = (Lexeme.ofSource keywords source).map (·.token)) :
    f.tokenLine = 1 + lineEnds (consumed pieces (c.latest - 1)) := by
  generalize source_eq : Lexeme.ofSource keywords source = xs at stands
  cases stands with
  | fresh => rfl
  | delivered whole | due whole =>
    exact (Lexeme.lines_ofSource parts same (source_eq.trans whole)).1

end StandsAt

structure Marks (source : List Char) (pieces : List Piece) (place : Nat) (t : Token) (f : Feed) :
    Prop where
  tokenLine : ∃ before p after, pieces = before ++ p :: after ∧ before.length = place ∧
    p.token = t ∧ f.tokenLine = 1 + lineEnds (before.flatMap Piece.chars ++ p.gap)
  /-- a line end is on the line that it ends -/
  endOfLine : t.kind = .endOfLine → f.line = f.tokenLine + 1
  /-- the end of input is on the last line -/
  endOfInput : t.kind = .endOfInput → f.tokenLine = 1 + lineEnds source

structure Tracks (source : List Char) (pieces : List Piece) (c : Cursor) (f : Feed) : Prop where
  line : f.line = 1 + lineEnds (consumed pieces c.latest)
  delivery : ∀ u t, (f.use u).1 = .token t → Marks source pieces c.place t (f.use u).2
  later : ∀ us, f.tokenLine ≤ (f.useAll us).tokenLine

theorem StandsAt.marks (stands : StandsAt (Lexeme.ofSource keywords source) c f)
    (parts : Token.Partition keywords source.toList pieces)
    (same : pieces.map (·.token) = (Lexeme.ofSource keywords source).map (·.token))
    {u : Use} {t : Token} (answer : (f.use u).1 = .token t) :
    Marks source.toList pieces c.place t (f.use u).2 := by
  obtain ⟨first, used⟩ := stands.use u
  rw [← same] at first used
  obtain ⟨there, next⟩ := Cursor.use_eq_token c (first ▸ answer)
  rw [next] at used
  have line := used.line_eq parts same
  have tokenLine := used.tokenLine_eq parts same
  simp only [Cursor.latest, Nat.add_sub_cancel] at line tokenLine
  obtain ⟨p, present, rfl⟩ : ∃ p, pieces[c.place]? = some p ∧ p.token = t := by
    simpa using there
  obtain ⟨inside, here⟩ := List.getElem?_eq_some_iff.mp present
  obtain ⟨before, after, rfl, length⟩ : ∃ before after, pieces = before ++ p :: after ∧
      before.length = c.place := by
    refine ⟨pieces.take c.place, pieces.drop (c.place + 1), ?_, ?_⟩
    · rw [← here, ← List.drop_eq_getElem_cons inside, List.take_append_drop]
    · exact List.length_take_of_le (Nat.le_of_lt inside)
  rw [← length] at line tokenLine ⊢
  rw [Token.consumed_succ, Token.lineEnds_append] at line
  have ends := (parts.fits before p after rfl).lineEnds
  constructor
  · refine ⟨before, p, after, rfl, rfl, rfl, ?_⟩
    rw [tokenLine, parts.lineEnds_gap]
  · intro kind
    rw [line, tokenLine, ends, if_pos kind, Nat.add_assoc]
  · intro kind
    have none : lineEnds p.chars = 0 := by
      rw [ends, kind]
      rfl
    obtain rfl := parts.endOfInput_last kind
    have all : source.toList = before.flatMap Piece.chars ++ p.chars := by
      simpa using parts.whole
    rw [tokenLine, Token.consumed_length, all, Token.lineEnds_append, none, Nat.add_zero]

/-- However a fresh feed is used, its lines are told by the source. -/
theorem ofSource_tracks_lines (keywords : List String) (source : String) :
    let fresh := ofSource keywords source
    ∃ pieces, (fresh.use .tokenize).1 = .tokens (pieces.map (·.token)) ∧
      Token.Partition keywords source.toList pieces ∧
        ∀ us, Tracks source.toList pieces (Cursor.start.useAll (pieces.map (·.token)) us)
          (fresh.useAll us) := by
  intro fresh
  obtain ⟨pieces, same, parts⟩ := Lexeme.partition_ofSource keywords source
  have first : StandsAt (Lexeme.ofSource keywords source) .start fresh := .fresh
  refine ⟨pieces, congrArg Answer.tokens same.symm, parts, fun us => ?_⟩
  have stands := first.useAll us
  rw [← same] at stands
  constructor
  · exact stands.line_eq parts same
  · exact fun u t answer => stands.marks parts same answer
  · intro vs
    have used := stands.useAll vs
    rw [← same] at used
    rw [stands.tokenLine_eq parts same, used.tokenLine_eq parts same]
    have later := Cursor.latest_le_useAll (pieces.map (·.token))
      (Cursor.start.useAll (pieces.map (·.token)) us) vs
    exact Nat.add_le_add_left (Token.lineEnds_consumed_mono pieces (Nat.sub_le_sub_right later 1)) 1

-- The line end after a comment is on the line of the comment, also when it is pushed back.
example : ((ofSource [] "a // b\nc").useAll [.next, .next, .pushBack]).tokenLine = 1 ∧
    ((ofSource [] "a // b\nc").useAll [.next, .next, .pushBack]).line = 2 := by
  decide +kernel

end Feed

end TurtleGraphics
