import TurtleGraphics.Proofs.Grammar.Discipline
import TurtleGraphics.Proofs.Grammar.Halt
import TurtleGraphics.Proofs.Grammar.Parse
import TurtleGraphics.Proofs.Token.Line

/-!
An error is reported at the earliest token at which it can be told that there is one. The tokens
before it begin a text that is accepted, and with it they begin none.
-/

namespace TurtleGraphics

open Phrase (Script)

namespace Grammar

/-- Where no program starts, the line ends before it have been used up. -/
theorem program_passed {n : Nat} {s s' : State} (h : program n s = .ok false s') :
    ∃ blank, Script.readBlank n s.feed.remaining = .matched blank s'.feed.remaining := by
  have passed {s1 : State} (h : trimmedProgram n s1 = .ok false s') :
      s'.feed.remaining = s1.feed.remaining := by
    have outcome := trimmedProgram_reads n [] s1
    rw [h] at outcome
    generalize Script.readTrimmed n [] s1.feed.remaining = reading at outcome
    cases outcome with
    | matched good => cases good.1
    | passed good => exact good.2.1
  have outcome := lineEnd_drops n s
  change EStateM.bind (lineEnd n) _ s = _ at h
  unfold EStateM.bind at h
  unfold Script.readBlank
  generalize lineEnd n s = result at outcome h
  generalize Phrase.LineEnd.read n s.feed.remaining = reading at outcome
  cases outcome with
  | @matched l b s1 good => exact ⟨l.first :: l.more, by rw [passed h]; rfl⟩
  | @passed b s1 good => exact ⟨[], by rw [passed h, good.2.1]; rfl⟩
  | failed => cases h

end Grammar

namespace Program

structure Refused (source : String) (e : SyntaxError) (s : Grammar.State) : Prop where
  read : read (.ofSource (complete source)) = .error e s
  line : e.line = s.feed.tokenLine
  peeked : s.feed.Peeked
  used : ∃ before, Lexeme.ofSource keywords (complete source) = before ++ s.feed.ahead
  halts : Script.Halts (tokens source).length (tokens source) s.feed.remaining

theorem read_error {start s : Grammar.State} {e : SyntaxError}
    (failed : Grammar.recognise .program start = .error e s) : read start = .error e s := by
  simp only [read, Grammar.expect, bind, EStateM.bind, failed]

theorem read_passed {start s : Grammar.State}
    (passed : Grammar.recognise .program start = .ok false s) :
    read start = .error (s.error .noCommand) s := by
  simp only [read, Grammar.expect, bind, EStateM.bind, passed]
  rfl

theorem parse_of_read {source : String} {e : SyntaxError} {s : Grammar.State}
    (refused : read (.ofSource (complete source)) = .error e s) : parse source = .error e := by
  unfold parse
  rw [refused]

theorem error_of_parse {source : String} {e e' : SyntaxError} {s : Grammar.State}
    (rejected : parse source = .error e)
    (refused : read (.ofSource (complete source)) = .error e' s) : e' = e := by
  rw [parse_of_read refused] at rejected
  exact Except.error.inj rejected

theorem refused_of_parse {source : String} {e : SyntaxError} (rejected : parse source = .error e) :
    ∃ s, Refused source e s := by
  let start : Grammar.State := .ofSource (complete source)
  have orderly := Grammar.orderly_ofSource (complete source)
  have attempted := Grammar.recognise_attempted .program orderly
  have ran : Grammar.Ran _ _ (Script.read (tokens source).length (tokens source))
      (Grammar.recognise .program start) :=
    Grammar.program_ran _ start
  generalize recognised : Grammar.recognise .program start = result at ran
  rw [recognised] at attempted
  generalize reading : Script.read (tokens source).length (tokens source) = outcome at ran
  cases attempted with
  | matched count under =>
    cases ran with
    | matched good =>
      rcases parse_eq_read source with ⟨_, _, p, -, accepted, -⟩ | ⟨unread, -⟩
      · rw [accepted] at rejected
        cases rejected
      · exact absurd reading (unread _ _)
    | passed good => cases good
  | @passed s skipped =>
    cases ran with
    | matched good => cases good.1
    | passed =>
      have refused := read_passed recognised
      obtain rfl := error_of_parse rejected refused
      obtain ⟨dropped, -, used⟩ := skipped.tokens
      obtain ⟨blank, same⟩ := Grammar.program_passed (n := start.bound) recognised
      exact ⟨s, refused, rfl, skipped.peeked, ⟨dropped, used⟩, Script.halts_of_passed reading same⟩
  | @failed s fault held pushed ordinary under peeked =>
    cases ran with
    | failed =>
      have refused := read_error recognised
      obtain rfl := error_of_parse rejected refused
      obtain ⟨used, -, split⟩ := under.tokens
      exact ⟨s, refused, rfl, peeked, ⟨used, split⟩, Script.halts_of_failed reading⟩

/-- The tokens of a script that ends with a line end make up a text. -/
theorem exists_derived {s : Script} (longest : s.Longest) {us : List Token}
    (yield : s.tokens = us ++ [Token.newline, Token.theEnd]) (legible : Phrase.AllLegible us) :
    ∃ source, Derives source s := by
  let source := String.ofList (Token.spelled us ++ ['\n'])
  have ends : source.endsWith "\n" = true := by
    rw [String.endsWith_eq_endsWith_toSlice, String.Slice.endsWith_string_iff]
    simp [source]
  have whole : (complete source).toList = Token.spelled us ++ ['\n'] := by
    rw [complete, if_pos ends]
    exact String.toList_ofList
  refine ⟨source, ?_, longest⟩
  rw [yield, tokens, Lexeme.ofSource, Lexeme.tokens_readFrom, whole,
    Token.tokens_spelled fun t member => (legible t member).alone]
  rfl

variable {source : String} {e : SyntaxError} {s : Grammar.State}

/-- The end of input is not used up. -/
theorem Refused.remaining_ne_nil (refused : Refused source e s) : s.feed.remaining ≠ [] := by
  intro dry
  obtain ⟨others, whole, -⟩ := Lexeme.tokens_ofSource keywords (complete source)
  obtain ⟨used, split, inside, -⟩ := refused.halts.apart 0 (Nat.le_refl _)
  have last : tokens source = others ++ [Token.theEnd] := whole
  rw [dry, List.append_nil, last] at split
  have member : Token.theEnd ∈ used := by
    rw [← split]
    simp
  exact inside _ member rfl

/-- The token at which the reading stops, and those before it. -/
theorem Refused.stop (refused : Refused source e s) :
    ∃ before x, s.feed.latest = .due x ∧
      Lexeme.ofSource keywords (complete source) = before ++ x :: s.feed.pending ∧
        e.line = x.line := by
  obtain ⟨before, used⟩ := refused.used
  rcases refused.peeked with dry | ⟨x, due⟩
  · exact absurd dry refused.remaining_ne_nil
  · have ahead : s.feed.ahead = x :: s.feed.pending := by
      rw [Feed.ahead, due]
    have line : s.feed.tokenLine = x.line := by
      rw [Feed.tokenLine, due]
      rfl
    exact ⟨before, x, due, by rw [used, ahead], refused.line.trans line⟩

structure FoundAt (source : String) (e : SyntaxError) (before : List Lexeme) (x : Lexeme) :
    Prop where
  looked : ∃ s, read (.ofSource (complete source)) = .error e s ∧ s.feed.latest = .due x ∧
    Lexeme.ofSource keywords (complete source) = before ++ x :: s.feed.pending
  begins : ∃ source' p, parse source' = .ok p ∧ before.map (·.token) <+: tokens source'
  hopeless : ∀ source' p, parse source' = .ok p →
    ¬ (before ++ [x]).map (·.token) <+: tokens source'
  line : ∃ pieces p further,
    Token.Partition keywords (complete source).toList (pieces ++ p :: further) ∧
      pieces.map (·.token) = before.map (·.token) ∧ p.token = x.token ∧ '\n' ∉ p.gap ∧
        e.line = 1 + Token.lineEnds (pieces.flatMap Token.Piece.chars ++ p.gap)

section Stop

variable {before pending : List Lexeme} {x : Lexeme}

theorem remaining_of_stop (due : s.feed.latest = .due x) :
    s.feed.remaining = x.token :: s.feed.pending.map (·.token) := by
  rw [Feed.remaining, Feed.ahead, due]
  rfl

theorem tokens_of_stop
    (split : Lexeme.ofSource keywords (complete source) = before ++ x :: pending) :
    tokens source = before.map (·.token) ++ x.token :: pending.map (·.token) := by
  rw [tokens, split, List.map_append, List.map_cons]

theorem Refused.begins (refused : Refused source e s) (due : s.feed.latest = .due x)
    (split : Lexeme.ofSource keywords (complete source) = before ++ x :: s.feed.pending) :
    ∃ source' p, parse source' = .ok p ∧ before.map (·.token) <+: tokens source' := by
  have whole := tokens_of_stop split
  rw [← remaining_of_stop due] at whole
  obtain ⟨script, longest, us, yield, used, tail, same, rfl, fill⟩ :=
    refused.halts.viable (Nat.le_refl _)
  obtain rfl := List.append_cancel_right (whole.symm.trans same)
  obtain ⟨used', same', inside, -⟩ := refused.halts.apart 0 (Nat.le_refl _)
  obtain rfl := List.append_cancel_right (whole.symm.trans same')
  have legible : Phrase.AllLegible (before.map (·.token)) := by
    intro t member
    have read : t ∈ tokens source := by
      rw [whole]
      exact List.mem_append_left _ member
    rcases Token.legible_of_mem_ofSource read with rfl | legible
    · exact absurd rfl (inside _ member)
    · exact legible
  obtain ⟨source', derived⟩ :=
    exists_derived longest yield (Phrase.allLegible_append.mpr ⟨legible, fill⟩)
  obtain ⟨p, accepted, -⟩ := derived.parsed
  refine ⟨source', p, accepted, ?_⟩
  rw [← derived.yield, yield, List.append_assoc]
  exact List.prefix_append _ _

theorem Refused.hopeless (refused : Refused source e s) (due : s.feed.latest = .due x)
    (split : Lexeme.ofSource keywords (complete source) = before ++ x :: s.feed.pending)
    {source' : String} {p : Program} (accepted : parse source' = .ok p) :
    ¬ (before ++ [x]).map (·.token) <+: tokens source' := by
  rintro ⟨more, same⟩
  have whole := tokens_of_stop split
  rw [← remaining_of_stop due] at whole
  obtain ⟨script, derived, -⟩ := derives_of_parse accepted
  have read := derived.read_eq
  obtain ⟨used, same', -, apart⟩ :=
    refused.halts.apart (tokens source').length (Nat.le_refl _)
  obtain rfl := List.append_cancel_right (whole.symm.trans same')
  have other : tokens source' = before.map (·.token) ++ (x.token :: more) := by
    rw [← same]
    simp
  have head : (x.token :: more).head? = s.feed.remaining.head? := by
    rw [remaining_of_stop due]
    rfl
  rw [other] at read apart
  exact apart _ head (Nat.le_refl _) _ _ read

theorem line_of_stop
    (split : Lexeme.ofSource keywords (complete source) = before ++ x :: pending) :
    ∃ pieces p further,
      Token.Partition keywords (complete source).toList (pieces ++ p :: further) ∧
        pieces.map (·.token) = before.map (·.token) ∧ p.token = x.token ∧ '\n' ∉ p.gap ∧
          x.line = 1 + Token.lineEnds (pieces.flatMap Token.Piece.chars ++ p.gap) := by
  obtain ⟨all, same, parts⟩ := Lexeme.partition_ofSource keywords (complete source)
  rw [split, List.map_append, List.map_cons] at same
  obtain ⟨pieces, others, rfl, first, later⟩ := List.map_eq_append_iff.mp same
  obtain ⟨p, further, rfl, token, -⟩ := List.map_eq_cons_iff.mp later
  have gap := (parts.fits pieces p further rfl).gapLine
  exact ⟨pieces, p, further, parts, first, token, gap, Lexeme.line_ofSource split parts first⟩

end Stop

/-- Errors are reported at the earliest possible token, and on its line. -/
theorem error_found_earliest (rejected : parse source = .error e) :
    ∃ before x, FoundAt source e before x := by
  obtain ⟨s, refused⟩ := refused_of_parse rejected
  obtain ⟨before, x, due, split, line⟩ := refused.stop
  refine ⟨before, x, ⟨s, refused.read, due, split⟩, refused.begins due split, ?_, ?_⟩
  · intro source' p accepted
    exact refused.hopeless due split accepted
  · rw [line]
    exact line_of_stop split

/-- A comment before it and line ends do not move the error: after a block its line has to end. -/
theorem error_found_earliest_after_block : ∃ e before x,
    parse "repeat 2 \x7b\n  forward 10 // go\n\x7d home\n" = .error e ∧ e.line = 3 ∧
      x = ⟨Phrase.word "home", 3⟩ ∧
        FoundAt "repeat 2 \x7b\n  forward 10 // go\n\x7d home\n" e before x := by
  let told : EStateM.Result SyntaxError Grammar.State Program → Option (Nat × Feed.Latest)
    | .error e s => some (e.line, s.feed.latest)
    | .ok _ _ => none
  have answer :
      told (read (.ofSource (complete "repeat 2 \x7b\n  forward 10 // go\n\x7d home\n"))) =
        some (3, .due ⟨Phrase.word "home", 3⟩) := by
    decide +kernel
  generalize came : read _ = result at answer
  cases result with
  | ok p s => cases answer
  | error e s =>
    obtain ⟨line, latest⟩ := Prod.mk.inj (Option.some.inj answer)
    have rejected := parse_of_read came
    obtain ⟨before, x, found⟩ := error_found_earliest rejected
    obtain ⟨s', read, due, -⟩ := found.looked
    rw [came] at read
    cases read
    rw [latest] at due
    exact ⟨e, before, x, rejected, line, (Feed.Latest.due.inj due).symm, found⟩

end Program

end TurtleGraphics
