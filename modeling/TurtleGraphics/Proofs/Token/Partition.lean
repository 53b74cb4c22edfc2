import TurtleGraphics.Proofs.Token.Numeral
import TurtleGraphics.Token.Feed

/-!
The tokens of a source, with the gaps before them, are the source: nothing is lost and nothing is
read twice. A relation says how a text is cut up into tokens; reading is shown to cut by following
the characters that are held in the draft.
-/

namespace TurtleGraphics

open Text

namespace Token

def IsSpace (cs : List Char) : Prop :=
  ∀ c ∈ cs, isBlank c = true ∧ c ≠ '\n'

/-- What is skipped before a text: blanks, and perhaps a comment up to the end of its line. -/
inductive Gap (after : List Char) : List Char → Prop
  | blank {space : List Char} (blanks : IsSpace space) : Gap after space
  | comment {space cs : List Char} (blanks : IsSpace space) (line : '\n' ∉ cs)
    (ends : after = [] ∨ after.head? = some '\n') : Gap after (space ++ '/' :: '/' :: cs)

def IsWord (cs : List Char) : Prop :=
  ∃ first others, cs = first :: others ∧ startsWord first = true ∧
    ∀ c ∈ others, joinsWord c = true

structure IsMark (c : Char) : Prop where
  notBlank : isBlank c = false
  notLetter : isAlphabetic c = false
  notUnderscore : c ≠ '_'
  notDigit : c.isDigit = false

inductive Reads (keywords : List String) : Token → List Char → Prop
  | word {w : String} {rest : List Char} (word : IsWord w.toList)
    (longest : ∀ c ∈ rest.head?, joinsWord c = false) : Reads keywords (ofWord keywords w) rest
  | symbol {c : Char} {rest : List Char} (mark : IsMark c)
    (single : c = '/' → rest.head? ≠ some '/') : Reads keywords ⟨.symbol, c.toString⟩ rest
  | newline {rest : List Char} : Reads keywords newline rest
  | literal {kind : Kind} {w : String} {rest : List Char} (numeric : kind = .number ∨ kind = .error)
    (line : '\n' ∉ w.toList) (numeral : kind = .number → Numeral w.toList)
    (longest : (∀ c ∈ w.toList.getLast?, isPrecision c = false) →
      kind = .number → ∀ c ∈ rest.head?, c.isDigit = false) : Reads keywords ⟨kind, w⟩ rest

inductive Cut (keywords : List String) : List Char → List Token → Prop
  | finish {gap : List Char} (skipped : Gap [] gap) : Cut keywords gap [theEnd]
  | token {gap rest : List Char} {t : Token} {ts : List Token}
    (skipped : Gap (t.text.toList ++ rest) gap) (reads : Reads keywords t rest)
    (others : Cut keywords rest ts) : Cut keywords (gap ++ (t.text.toList ++ rest)) (t :: ts)

variable {keywords : List String}

theorem isSpace_nil : IsSpace [] := by
  intro c member
  cases member

theorem IsSpace.append {space : List Char} {c : Char} (blanks : IsSpace space)
    (blank : isBlank c = true) (line : c ≠ '\n') : IsSpace (space ++ [c]) := by
  intro d member
  rcases List.mem_append.mp member with old | new
  · exact blanks d old
  · obtain rfl := List.mem_singleton.mp new
    exact ⟨blank, line⟩

theorem Cut.nil : Cut keywords [] [theEnd] :=
  .finish (.blank isSpace_nil)

theorem IsWord.append {cs : List Char} {c : Char} (word : IsWord cs) (joins : joinsWord c = true) :
    IsWord (cs ++ [c]) := by
  obtain ⟨first, others, rfl, starts, inside⟩ := word
  refine ⟨first, others ++ [c], rfl, starts, ?_⟩
  intro d member
  rcases List.mem_append.mp member with old | new
  · exact inside d old
  · obtain rfl := List.mem_singleton.mp new
    exact joins

theorem isMark_slash : IsMark '/' :=
  ⟨by decide, by decide +kernel, by decide, by decide⟩

theorem isMark_dot : IsMark '.' :=
  ⟨by decide, by decide +kernel, by decide, by decide⟩

namespace Draft

def tokens (keywords : List String) (d : Draft) : List Char → List Token
  | [] => d.close keywords ++ [theEnd]
  | c :: cs => (d.next keywords c).1 ++ (d.next keywords c).2.tokens keywords cs

inductive Holds : Draft → List Char → Prop
  | gap {space : List Char} (blanks : IsSpace space) : Holds .gap space
  | slash {space : List Char} (blanks : IsSpace space) : Holds .slash (space ++ ['/'])
  | comment {space cs : List Char} (blanks : IsSpace space) (line : '\n' ∉ cs) :
    Holds .comment (space ++ '/' :: '/' :: cs)
  | word {space read : List Char} (blanks : IsSpace space) (word : IsWord read.reverse) :
    Holds (.word read) (space ++ read.reverse)
  | literal {stage : Stage} {space read : List Char} (blanks : IsSpace space) (line : '\n' ∉ read)
    (spells : stage.Spells read.reverse) : Holds (.literal stage read) (space ++ read.reverse)

end Draft

theorem Stage.last_numeric {s : Stage} {c : Char} {kind : Kind} (h : s.next c = .last kind) :
    kind = .number ∨ kind = .error := by
  have precision : s.precision = .number ∨ s.precision = .error := by cases s <;> decide
  unfold Stage.next at h
  split at h
  · cases h
  · split at h
    · cases h
      exact precision
    · repeat' split at h
      all_goals cases h
      all_goals decide

theorem Stage.next_newline (s : Stage) : s.next '\n' = .stop := by
  cases s <;> decide

namespace Draft

/-- A token ends where the next character is read with no draft open. -/
theorem close_slash {space rest : List Char} {ts : List Token} (blanks : IsSpace space)
    (single : rest.head? ≠ some '/') (others : Cut keywords rest ts) :
    Cut keywords ((space ++ ['/']) ++ rest) (slash.close keywords ++ ts) := by
  have reads : Reads keywords ⟨.symbol, '/'.toString⟩ rest := .symbol isMark_slash fun _ => single
  have cut := Cut.token (.blank blanks) reads others
  simpa [close] using cut

theorem close_word {space read rest : List Char} {ts : List Token} (blanks : IsSpace space)
    (word : IsWord read.reverse) (longest : ∀ c ∈ rest.head?, joinsWord c = false)
    (others : Cut keywords rest ts) :
    Cut keywords ((space ++ read.reverse) ++ rest) ((Draft.word read).close keywords ++ ts) := by
  have same : (text read).toList = read.reverse := String.toList_ofList
  have reads : Reads keywords (ofWord keywords (text read)) rest := .word (same ▸ word) longest
  have cut := Cut.token (.blank blanks) reads others
  simpa [ofWord, same, close] using cut

theorem close_literal {stage : Stage} {space read rest : List Char} {ts : List Token}
    (blanks : IsSpace space) (line : '\n' ∉ read) (spells : stage.Spells read.reverse)
    (longest : ∀ c ∈ rest.head?, c.isDigit = false) (others : Cut keywords rest ts) :
    Cut keywords ((space ++ read.reverse) ++ rest) ((literal stage read).close keywords ++ ts) := by
  have same : (text read).toList = read.reverse := String.toList_ofList
  have reads : Reads keywords ⟨stage.kind, text read⟩ rest := by
    by_cases lone : stage = .dot
    · subst lone
      obtain rfl : read = ['.'] := by simpa using spells.eq_dot
      exact .symbol isMark_dot (fun same => absurd same (by decide))
    · apply Reads.literal
      · cases stage <;> simp_all [Stage.kind]
      · simpa [same] using line
      · exact fun number => same ▸ spells.numeral number
      · exact fun _ _ => longest
  have cut := Cut.token (.blank blanks) reads others
  simpa [same, close] using cut

/-- Whatever draft is open, what it holds and what follows are cut up by reading on. -/
def Cuts (keywords : List String) (cs : List Char) : Prop :=
  ∀ d held, Holds d held → Cut keywords (held ++ cs) (d.tokens keywords cs)

theorem cuts_nil : Cuts keywords [] := by
  intro d held holds
  cases holds with
  | gap blanks => simpa [tokens, close] using Cut.finish (.blank blanks)
  | slash blanks => exact close_slash blanks (by simp) .nil
  | comment blanks line =>
    simpa [tokens, close] using Cut.finish (.comment blanks line (.inl rfl))
  | word blanks word => exact close_word blanks word (by simp) .nil
  | literal blanks line spells => exact close_literal blanks line spells (by simp) .nil

section Step

variable {space cs : List Char} {c : Char}

theorem Cuts.gap (further : Cuts keywords cs) (blanks : IsSpace space) :
    Cut keywords (space ++ c :: cs) (gap.tokens keywords (c :: cs)) := by
  have closed : Cut keywords cs (Draft.gap.tokens keywords cs) :=
    further .gap [] (.gap isSpace_nil)
  have opened (d : Draft) (holds : Holds d (space ++ [c])) :
      Cut keywords (space ++ c :: cs) (d.tokens keywords cs) := by
    simpa using further d (space ++ [c]) holds
  have literal (stage : Stage) (line : c ≠ '\n') (spells : stage.Spells [c]) :
      Cut keywords (space ++ c :: cs) ((literal stage [c]).tokens keywords cs) := by
    apply opened
    apply Holds.literal blanks
    · simpa using line.symm
    · exact spells
  change Cut keywords (space ++ c :: cs) ((start c).1 ++ (start c).2.tokens keywords cs)
  unfold start
  simp only [beq_iff_eq]
  split
  · rename_i newline
    subst newline
    exact .token (.blank blanks) .newline closed
  rename_i line
  split
  · rename_i blank
    exact opened .gap (.gap (blanks.append blank line))
  rename_i notBlank
  split
  · rename_i starts
    have word : IsWord [c] := ⟨c, [], rfl, starts, by simp⟩
    have held : Holds (.word [c]) (space ++ [c].reverse) := .word blanks word
    exact opened (.word [c]) held
  rename_i notWord
  split
  · rename_i digit
    exact literal .whole line (.whole ⟨by simp, by simpa [AllDigits] using digit⟩)
  rename_i notDigit
  split
  · rename_i dot
    subst dot
    exact literal .dot line .dot
  split
  · rename_i slash
    subst slash
    exact opened .slash (.slash blanks)
  · rename_i notSlash
    simp only [startsWord, Bool.or_eq_true, beq_iff_eq, not_or, Bool.not_eq_true] at notWord
    have mark : IsMark c :=
      ⟨by simpa using notBlank, notWord.1, notWord.2, by simpa using notDigit⟩
    have cut := Cut.token (.blank blanks) (.symbol mark fun same => absurd same notSlash) closed
    simpa using cut

/-- The character that ends a draft is read again with none open. -/
theorem tokens_restart (d : Draft) :
    (d.restart keywords c).1 ++ (d.restart keywords c).2.tokens keywords cs =
      d.close keywords ++ Draft.gap.tokens keywords (c :: cs) := by
  simp [restart, tokens, next]

theorem Cuts.slash (further : Cuts keywords cs) (blanks : IsSpace space) :
    Cut keywords ((space ++ ['/']) ++ c :: cs) (slash.tokens keywords (c :: cs)) := by
  simp only [tokens, next]
  split
  · rename_i second
    obtain rfl : c = '/' := by simpa using second
    have held : Holds .comment (space ++ '/' :: '/' :: []) := .comment blanks (by simp)
    simpa using further .comment _ held
  · rename_i single
    rw [tokens_restart]
    exact close_slash blanks (by simpa using single) (further.gap isSpace_nil)

theorem Cuts.comment {skipped : List Char} (further : Cuts keywords cs) (blanks : IsSpace space)
    (line : '\n' ∉ skipped) : Cut keywords ((space ++ '/' :: '/' :: skipped) ++ c :: cs)
      (comment.tokens keywords (c :: cs)) := by
  simp only [tokens, next]
  split
  · rename_i ends
    obtain rfl : c = '\n' := by simpa using ends
    have closed : Cut keywords cs (Draft.gap.tokens keywords cs) :=
      further .gap [] (.gap isSpace_nil)
    exact .token (.comment blanks line (.inr rfl)) .newline closed
  · rename_i goesOn
    have other : c ≠ '\n' := by simpa using goesOn
    have longer : '\n' ∉ skipped ++ [c] := by simpa [line] using other.symm
    simpa using further .comment _ (.comment blanks longer)

theorem Cuts.word {read : List Char} (further : Cuts keywords cs) (blanks : IsSpace space)
    (word : IsWord read.reverse) : Cut keywords ((space ++ read.reverse) ++ c :: cs)
      ((Draft.word read).tokens keywords (c :: cs)) := by
  simp only [tokens, next]
  split
  · rename_i joins
    have longer : IsWord (c :: read).reverse := by
      rw [List.reverse_cons]
      exact word.append joins
    simpa using further (.word (c :: read)) _ (.word blanks longer)
  · rename_i ends
    rw [tokens_restart]
    exact close_word blanks word (by simpa using ends) (further.gap isSpace_nil)

theorem Cuts.literal {stage : Stage} {read : List Char} (further : Cuts keywords cs)
    (blanks : IsSpace space) (line : '\n' ∉ read) (spells : stage.Spells read.reverse) :
    Cut keywords ((space ++ read.reverse) ++ c :: cs)
      ((Draft.literal stage read).tokens keywords (c :: cs)) := by
  have longer (goesOn : stage.next c ≠ .stop) : '\n' ∉ c :: read := by
    rw [List.mem_cons, not_or]
    refine ⟨?_, line⟩
    rintro rfl
    exact goesOn stage.next_newline
  simp only [tokens, next]
  split
  · rename_i later more
    have spelled : later.Spells (c :: read).reverse := by
      rw [List.reverse_cons]
      exact spells.more more
    have held : Holds (.literal later (c :: read)) (space ++ (c :: read).reverse) :=
      .literal blanks (longer (by simp [more])) spelled
    simpa using further _ _ held
  · rename_i kind last
    have closed : Cut keywords cs (Draft.gap.tokens keywords cs) :=
      further .gap [] (.gap isSpace_nil)
    have same : (text (c :: read)).toList = (c :: read).reverse := String.toList_ofList
    have within : '\n' ∉ (text (c :: read)).toList := by
      rw [same, List.mem_reverse]
      exact longer (by simp [last])
    have reads : Reads keywords ⟨kind, text (c :: read)⟩ cs := by
      apply Reads.literal (Stage.last_numeric last) within
      · rintro rfl
        rw [same, List.reverse_cons]
        exact spells.last last
      · rintro imprecise rfl
        have precise := (Stage.next_eq_last_number last).1
        rw [same, List.reverse_cons, List.getLast?_concat] at imprecise
        rw [imprecise c rfl] at precise
        cases precise
    have cut := Cut.token (.blank blanks) reads closed
    simpa [same] using cut
  · rename_i stop
    have other : c.isDigit = false := Stage.isDigit_of_next_eq_stop stop
    rw [tokens_restart]
    exact close_literal blanks line spells (by simpa using other) (further.gap isSpace_nil)

end Step

theorem cuts (cs : List Char) : Cuts keywords cs := by
  induction cs with
  | nil => exact cuts_nil
  | cons c cs ih =>
    intro d held holds
    cases holds with
    | gap blanks => exact ih.gap blanks
    | slash blanks => exact ih.slash blanks
    | comment blanks line => exact ih.comment blanks line
    | word blanks word => exact ih.word blanks word
    | literal blanks line spells => exact ih.literal blanks line spells

end Draft

structure Piece where
  gap : List Char
  token : Token

def Piece.chars (p : Piece) : List Char :=
  p.gap ++ p.token.text.toList

structure Piece.Fits (keywords : List String) (p : Piece) (after : List Char) : Prop where
  gap : Gap (p.token.text.toList ++ after) p.gap
  gapLine : '\n' ∉ p.gap
  lineEnd : p.token.kind = .endOfLine → p.token.text = "\n"
  tokenLine : p.token.kind ≠ .endOfLine → '\n' ∉ p.token.text.toList
  word : p.token.kind = .name ∨ p.token.kind = .keyword → IsWord p.token.text.toList ∧
    (∀ c ∈ after.head?, joinsWord c = false) ∧
      (p.token.kind = .keyword ↔ p.token.text ∈ keywords)
  symbol : p.token.kind = .symbol → ∃ c, p.token.text = c.toString ∧ IsMark c ∧
    (c = '/' → after.head? ≠ some '/')

structure Partition (keywords : List String) (source : List Char) (pieces : List Piece) :
    Prop where
  whole : source = pieces.flatMap Piece.chars
  last : ∃ before gap, pieces = before ++ [⟨gap, theEnd⟩] ∧
    ∀ p ∈ before, p.token.kind ≠ .endOfInput
  fits : ∀ before p after, pieces = before ++ p :: after →
    p.Fits keywords (after.flatMap Piece.chars)

theorem Gap.line {after gap : List Char} (skipped : Gap after gap) : '\n' ∉ gap := by
  cases skipped with
  | blank blanks => exact fun member => (blanks _ member).2 rfl
  | comment blanks line =>
    simp only [List.mem_append, List.mem_cons, not_or]
    exact ⟨fun member => (blanks _ member).2 rfl, by decide, by decide, line⟩

theorem IsWord.line {cs : List Char} (word : IsWord cs) : '\n' ∉ cs := by
  have blank : joinsWord '\n' = false := by decide +kernel
  have starts : startsWord '\n' = false := by decide +kernel
  obtain ⟨first, others, rfl, letter, inside⟩ := word
  rw [List.mem_cons, not_or]
  constructor
  · rintro rfl
    simp [starts] at letter
  · intro member
    have joins := inside _ member
    simp [blank] at joins

theorem Reads.fits {t : Token} {gap after : List Char} (reads : Reads keywords t after)
    (skipped : Gap (t.text.toList ++ after) gap) : Piece.Fits keywords ⟨gap, t⟩ after := by
  cases reads with
  | @word w _ word longest =>
    have kind : (ofWord keywords w).kind = if keywords.contains w then .keyword else .name := rfl
    by_cases reserved : w ∈ keywords
    · constructor <;> simp_all [ofWord, skipped.line, word.line]
    · constructor <;> simp_all [ofWord, skipped.line, word.line]
  | @symbol c _ mark single =>
    have line : c ≠ '\n' := by
      rintro rfl
      exact absurd mark.notBlank (by decide)
    constructor
    · exact skipped
    · exact skipped.line
    · simp
    · simpa using line.symm
    · simp
    · exact fun _ => ⟨c, rfl, mark, single⟩
  | newline =>
    constructor
    · exact skipped
    · exact skipped.line
    all_goals simp [Token.newline]
  | literal numeric line =>
    rcases numeric with rfl | rfl
    · constructor <;> simp [skipped.line, skipped, line]
    · constructor <;> simp [skipped.line, skipped, line]

theorem Reads.ne_endOfInput {t : Token} {after : List Char} (reads : Reads keywords t after) :
    t.kind ≠ .endOfInput := by
  cases reads with
  | word =>
    simp only [ofWord]
    split <;> simp
  | symbol => simp
  | newline => simp [Token.newline]
  | literal numeric => rcases numeric with rfl | rfl <;> simp

theorem Cut.pieces {source : List Char} {ts : List Token} (cut : Cut keywords source ts) :
    ∃ pieces, pieces.map (·.token) = ts ∧ Partition keywords source pieces ∧
      ∀ before p after, pieces = before ++ p :: after →
        p.token = theEnd ∨ Reads keywords p.token (after.flatMap Piece.chars) := by
  induction cut with
  | @finish gap skipped =>
    have single {before : List Piece} {p : Piece} {after : List Piece}
        (same : [⟨gap, theEnd⟩] = before ++ p :: after) :
        before = [] ∧ p = ⟨gap, theEnd⟩ ∧ after = [] := by
      cases before <;> simp_all
    refine ⟨[⟨gap, theEnd⟩], rfl, ⟨?_, ⟨[], gap, rfl, by simp⟩, ?_⟩, ?_⟩
    · simp [Piece.chars, theEnd]
    · intro before p after same
      obtain ⟨rfl, rfl, rfl⟩ := single same
      constructor <;> simp [theEnd, skipped, skipped.line]
    · intro before p after same
      obtain ⟨rfl, rfl, rfl⟩ := single same
      exact .inl rfl
  | @token gap rest t ts skipped reads _ ih =>
    obtain ⟨pieces, tokens, cutRest, each⟩ := ih
    obtain ⟨before, gap', same, others⟩ := cutRest.last
    refine ⟨⟨gap, t⟩ :: pieces, by simp [tokens], ⟨?_,
      ⟨⟨gap, t⟩ :: before, gap', by simp [same], ?_⟩, ?_⟩, ?_⟩
    · simp [Piece.chars, ← cutRest.whole]
    · intro p member
      rcases List.mem_cons.mp member with rfl | later
      · exact reads.ne_endOfInput
      · exact others p later
    · intro before p after same
      cases before with
      | nil =>
        obtain ⟨rfl, rfl⟩ := List.cons.inj same
        rw [← cutRest.whole]
        exact reads.fits skipped
      | cons q before => exact cutRest.fits before p after (List.cons.inj same).2
    · intro before p after same
      cases before with
      | nil =>
        obtain ⟨rfl, rfl⟩ := List.cons.inj same
        rw [← cutRest.whole]
        exact .inr reads
      | cons q before => exact each before p after (List.cons.inj same).2

end Token

namespace Lexeme

theorem tokens_readFrom (keywords : List String) (line : Nat) (d : Token.Draft) (cs : List Char) :
    (readFrom keywords line d cs).map (·.token) = d.tokens keywords cs := by
  induction cs generalizing line d with
  | nil => simp [readFrom, Token.Draft.tokens, Function.comp_def]
  | cons c cs ih => simp [readFrom, Token.Draft.tokens, ih, Function.comp_def]

theorem pieces_ofSource (keywords : List String) (source : String) :
    ∃ pieces, pieces.map (·.token) = (ofSource keywords source).map (·.token) ∧
      Token.Partition keywords source.toList pieces ∧
        ∀ before p after, pieces = before ++ p :: after → p.token = Token.theEnd ∨
          Token.Reads keywords p.token (after.flatMap Token.Piece.chars) := by
  have cut : Token.Cut keywords source.toList (Token.Draft.gap.tokens keywords source.toList) :=
    Token.Draft.cuts source.toList .gap [] (.gap Token.isSpace_nil)
  rw [ofSource, tokens_readFrom]
  exact cut.pieces

theorem partition_ofSource (keywords : List String) (source : String) :
    ∃ pieces, pieces.map (·.token) = (ofSource keywords source).map (·.token) ∧
      Token.Partition keywords source.toList pieces := by
  obtain ⟨pieces, same, parts, -⟩ := pieces_ofSource keywords source
  exact ⟨pieces, same, parts⟩

theorem tokens_ofSource (keywords : List String) (source : String) :
    ∃ before, (ofSource keywords source).map (·.token) = before ++ [Token.theEnd] ∧
      ∀ t ∈ before, t.kind ≠ .endOfInput := by
  obtain ⟨pieces, same, parts⟩ := partition_ofSource keywords source
  obtain ⟨before, gap, rfl, others⟩ := parts.last
  refine ⟨before.map (·.token), by simp [← same], ?_⟩
  intro t member
  obtain ⟨p, inside, rfl⟩ := List.mem_map.mp member
  exact others p inside

end Lexeme

end TurtleGraphics
