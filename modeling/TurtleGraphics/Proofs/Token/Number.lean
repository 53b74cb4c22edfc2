import TurtleGraphics.Proofs.Token.Delivery
import TurtleGraphics.Proofs.Token.Spelling

/-!
Every numeral is read as a number, and nothing else is. Reading goes through the stages in step with
their languages, so a numeral leads to a stage that is one of a number, or ends it at once.
-/

namespace TurtleGraphics

open Text

namespace Token

def digits : List Char :=
  ['0', '1', '2', '3', '4', '5', '6', '7', '8', '9']

theorem mem_digits {c : Char} (digit : c.isDigit = true) : c ∈ digits := by
  have each : ∀ n < 10, Char.ofNat (48 + n) ∈ digits := by decide
  have bounds : 48 ≤ c.toNat ∧ c.toNat ≤ 57 := by
    simpa [Char.isDigit, UInt32.le_iff_toNat_le] using digit
  have member := each (c.toNat - 48) (by omega)
  rwa [Nat.add_sub_cancel' bounds.1, Char.ofNat_toNat] at member

theorem start_digit {c : Char} (digit : c.isDigit = true) :
    Draft.start c = ([], .literal .whole [c]) := by
  have each : digits.all (fun c => decide (Draft.start c = ([], .literal .whole [c]))) = true := by
    decide +kernel
  exact of_decide_eq_true (List.all_eq_true.mp each c (mem_digits digit))

theorem startsWord_digit {c : Char} (digit : c.isDigit = true) : startsWord c = false := by
  have each : digits.all (fun c => !startsWord c) = true := by decide +kernel
  simpa using List.all_eq_true.mp each c (mem_digits digit)

namespace Stage

variable {s : Stage} {c : Char}

theorem next_digit (digit : c.isDigit = true) : s.next c = .more s.digit := by
  unfold next
  rw [if_pos digit]

theorem digit_digit (s : Stage) : s.digit.digit = s.digit := by
  cases s <;> rfl

theorem next_precision (precise : isPrecision c = true) : s.next c = .last s.precision := by
  rcases isPrecision_iff.mp precise with rfl | rfl | rfl | rfl <;> cases s <;> decide

theorem next_marker (marks : isMarker c = true) (started : s.isMantissa = true) :
    s.next c = .more marker := by
  rcases isMarker_iff.mp marks with rfl | rfl <;> cases s <;> first | decide | cases started

theorem marker_next_sign (signs : isSign c = true) : marker.next c = .more sign := by
  rcases isSign_iff.mp signs with rfl | rfl <;> decide

end Stage

/-- The text leads from no draft to this stage of a literal. -/
def Leads (keywords : List String) (s : Stage) (cs : List Char) : Prop :=
  Draft.gap.run keywords cs = ([], .literal s cs.reverse)

namespace Leads

variable {keywords : List String} {s further : Stage} {cs ds : List Char} {c : Char}

theorem more (leads : Leads keywords s cs) (h : s.next c = .more further) :
    Leads keywords further (cs ++ [c]) := by
  have step : (Draft.literal s cs.reverse).next keywords c =
      ([], .literal further (c :: cs.reverse)) := by
    simp only [Draft.next, h]
  have led : Draft.gap.run keywords cs.reverse.reverse = ([], .literal s cs.reverse) := by
    rw [List.reverse_reverse]
    exact leads
  simpa [Leads] using Draft.run_snoc led step

theorem digits (leads : Leads keywords s cs) (digits : Digits ds) :
    Leads keywords s.digit (cs ++ ds) := by
  obtain ⟨nonempty, all⟩ := digits
  induction ds generalizing s cs with
  | nil => exact absurd rfl nonempty
  | cons d ds ih =>
    obtain ⟨first, others⟩ := List.forall_mem_cons.mp all
    have one := leads.more (Stage.next_digit first)
    by_cases last : ds = []
    · subst last
      exact one
    · have rest := ih one last others
      rw [Stage.digit_digit, List.append_assoc] at rest
      exact rest

theorem whole (digits : Digits ds) : Leads keywords .whole ds := by
  obtain ⟨nonempty, all⟩ := digits
  cases ds with
  | nil => exact absurd rfl nonempty
  | cons d ds =>
    obtain ⟨first, others⟩ := List.forall_mem_cons.mp all
    have one : Leads keywords .whole [d] := (Draft.run_singleton d).trans (start_digit first)
    by_cases last : ds = []
    · subst last
      exact one
    · exact one.digits ⟨last, others⟩

theorem dot : Leads keywords .dot ['.'] := by
  have begun : Draft.start '.' = ([], .literal .dot ['.']) := by decide +kernel
  exact (Draft.run_singleton '.').trans begun

theorem point (digits : Digits ds) : Leads keywords .point (ds ++ ['.']) :=
  (whole digits).more (by decide)

/-- A text leads to the stage that it spells, as long as no exponent has started. -/
theorem of_mantissa (spells : s.Spells cs) (started : s.isMantissa = true) :
    Leads keywords s cs := by
  cases spells with
  | whole digits => exact whole digits
  | point digits => exact point digits
  | @fraction ds es digits places =>
    by_cases none : ds = []
    · subst none
      exact dot.digits places
    · have pointed : Leads keywords .point (ds ++ ['.']) := point ⟨none, digits⟩
      have leads := pointed.digits places
      rw [List.append_assoc] at leads
      exact leads
  | dot | marker | sign | exponent => cases started

end Leads

theorem Mantissa.spells {m : List Char} (mantissa : Mantissa m) :
    ∃ s : Stage, s.isMantissa = true ∧ s.Spells m := by
  cases mantissa with
  | whole digits => exact ⟨_, rfl, .whole digits⟩
  | @point ds es digits places =>
    by_cases none : es = []
    · subst none
      exact ⟨_, rfl, .point digits⟩
    · exact ⟨_, rfl, .fraction digits.all ⟨none, places⟩⟩
  | fraction places => exact ⟨_, rfl, .fraction allDigits_nil places⟩

namespace Leads

variable {keywords : List String} {s : Stage} {cs m : List Char} {c e : Char}

theorem marker (mantissa : Mantissa m) (marks : isMarker e = true) :
    Leads keywords .marker (m ++ [e]) := by
  obtain ⟨s, started, spells⟩ := mantissa.spells
  exact (of_mantissa spells started).more (Stage.next_marker marks started)

/-- A text leads to the stage that it spells. -/
theorem of_spells (spells : s.Spells cs) : Leads keywords s cs := by
  cases spells with
  | whole digits => exact whole digits
  | dot => exact dot
  | point digits => exact point digits
  | fraction digits places => exact of_mantissa (.fraction digits places) rfl
  | marker mantissa marks => exact marker mantissa marks
  | sign mantissa marks signs =>
    simpa using (marker mantissa marks).more (Stage.marker_next_sign signs)
  | @exponent m ds e sign mantissa marks signs digits =>
    have marked : Leads keywords .marker (m ++ [e]) := marker mantissa marks
    cases sign with
    | none =>
      have leads : Leads keywords .exponent ((m ++ [e]) ++ ds) := marked.digits digits
      simpa using leads
    | some c =>
      have signed := marked.more (Stage.marker_next_sign (signs c rfl))
      have leads : Leads keywords .exponent (((m ++ [e]) ++ [c]) ++ ds) := signed.digits digits
      simpa using leads

theorem alone (leads : Leads keywords s cs) : Alone keywords ⟨s.kind, String.ofList cs⟩ := by
  apply Alone.unclosed (d := .literal s cs.reverse)
  · rw [String.toList_ofList]
    exact leads
  · simp [Draft.close, Draft.text]

theorem alone_last {kind : Kind} (leads : Leads keywords s cs) (h : s.next c = .last kind) :
    Alone keywords ⟨kind, String.ofList (cs ++ [c])⟩ := by
  have step : (Draft.literal s cs.reverse).next keywords c =
      ([⟨kind, Draft.text (c :: cs.reverse)⟩], .gap) := by
    simp only [Draft.next, h]
  have led : Draft.gap.run keywords cs.reverse.reverse = ([], .literal s cs.reverse) := by
    rw [List.reverse_reverse]
    exact leads
  have read := Draft.run_snoc led step
  apply Alone.complete
  simpa [Draft.text] using read

end Leads

/-- A numeral is read as a number. -/
theorem Numeral.alone {keywords : List String} {w : List Char} (numeral : Numeral w) :
    Alone keywords ⟨.number, String.ofList w⟩ := by
  cases numeral with
  | plain mantissa =>
    obtain ⟨s, started, spells⟩ := mantissa.spells
    have number : s.kind = .number := by cases s <;> first | rfl | cases started
    exact number ▸ (Leads.of_spells spells).alone
  | @precise m p mantissa digit precise =>
    obtain ⟨s, started, spells⟩ := mantissa.spells
    have number : s.precision = .number := by
      cases spells with
      | whole | fraction => rfl
      | point => simp [Char.isDigit] at digit
      | dot | marker | sign | exponent => cases started
    have last := Stage.next_precision (s := s) precise
    exact (Leads.of_spells spells).alone_last (number ▸ last)
  | @scientific m ds e sign precision mantissa marks signs digits precise =>
    have leads : Leads keywords .exponent (m ++ e :: (sign.toList ++ ds)) :=
      .of_spells (.exponent mantissa marks signs digits)
    cases precision with
    | none =>
      have alone : Alone keywords ⟨.number, _⟩ := leads.alone
      simpa using alone
    | some p =>
      have last : Stage.exponent.next p = .last .number := Stage.next_precision (precise p rfl)
      simpa using leads.alone_last last
  | unfinished mantissa marks signs =>
    exact (Leads.of_spells (.sign mantissa marks signs)).alone

/-- A token whose text is a numeral is a number. -/
theorem Alone.number {keywords : List String} {t : Token} (alone : Alone keywords t)
    (numeral : Numeral t.text.toList) : t.kind = .number := by
  have read : Alone keywords ⟨.number, String.ofList t.text.toList⟩ := numeral.alone
  have other := read.ofText_text
  rw [String.ofList_toList, alone.ofText_text] at other
  rw [other]

theorem numeral_of_mem_ofSource {keywords : List String} {source : String} {t : Token}
    (member : t ∈ (Lexeme.ofSource keywords source).map (·.token)) (number : t.kind = .number) :
    Numeral t.text.toList := by
  obtain ⟨pieces, same, -, reads⟩ := Lexeme.pieces_ofSource keywords source
  rw [← same] at member
  obtain ⟨p, inside, rfl⟩ := List.mem_map.mp member
  obtain ⟨before, after, split⟩ := List.append_of_mem inside
  rcases reads before p after split with last | reads
  · rw [last] at number
    cases number
  · generalize p.token = t at reads number
    cases reads with
    | @word w =>
      unfold ofWord at number
      split at number <;> cases number
    | symbol | newline => cases number
    | literal _ _ numeral => exact numeral number

theorem numeral_ofText {keywords : List String} {w : String}
    (number : (ofText keywords w).kind = .number) : Numeral (ofText keywords w).text.toList := by
  have tokens : (Lexeme.ofSource keywords (String.ofList (w.toList ++ [' ']))).map (·.token) =
      Draft.gap.tokens keywords (w.toList ++ [' ']) := by
    rw [Lexeme.ofSource, Lexeme.tokens_readFrom, String.toList_ofList]
  rw [ofText, ← tokens] at number ⊢
  cases first : (Lexeme.ofSource keywords (String.ofList (w.toList ++ [' ']))).map (·.token) with
  | nil =>
    rw [first] at number
    cases number
  | cons t ts =>
    rw [first] at number
    exact numeral_of_mem_ofSource (first ▸ List.mem_cons_self) number

theorem Alone.first {keywords : List String} {t : Token} (alone : Alone keywords t) {c : Char}
    (blank : isBlank c = true) (rest : List Char) :
    ∃ ts, Draft.gap.tokens keywords (t.text.toList ++ c :: rest) = t :: ts := by
  have parts : t.text.toList ++ c :: rest = (t.text.toList ++ [c]) ++ rest := by simp
  rw [parts, Draft.tokens_append, alone.run_isBlank blank]
  exact ⟨_, rfl⟩

structure Piece.Numeric (p : Piece) (after : List Char) : Prop where
  number : p.token.kind = .number → Numeral p.token.text.toList
  digit : ∀ c ∈ p.token.text.toList.head?, c.isDigit = true → p.token.kind ≠ .number →
    p.token.kind = .error ∧ ¬ Numeral p.token.text.toList
  point : p.token.text.toList.head? = some '.' → p.token.kind ≠ .number →
    p.token = ⟨.symbol, "."⟩ ∨ p.token.kind = .error ∧ ¬ Numeral p.token.text.toList
  /-- unless a precision letter ends it, a number takes in all digits -/
  longest : p.token.kind = .number → (∀ c ∈ p.token.text.toList.getLast?, isPrecision c = false) →
    ∀ c ∈ after.head?, c.isDigit = false

theorem numeric_theEnd (gap after : List Char) : Piece.Numeric ⟨gap, theEnd⟩ after := by
  constructor <;> simp [theEnd]

theorem Reads.numeric {keywords : List String} {t : Token} {after : List Char}
    (reads : Reads keywords t after) (alone : Alone keywords t) (gap : List Char) :
    Piece.Numeric ⟨gap, t⟩ after := by
  cases reads with
  | @word w _ word _ =>
    have other : (ofWord keywords w).kind ≠ .number := by
      unfold ofWord
      split <;> exact Kind.noConfusion
    obtain ⟨first, others, same, starts, -⟩ := word
    have head : (ofWord keywords w).text.toList.head? = some first := congrArg List.head? same
    refine ⟨fun number => absurd number other, ?_, ?_, fun number => absurd number other⟩
    · intro c started digit
      obtain rfl := Option.some.inj (head.symm.trans started)
      rw [startsWord_digit digit] at starts
      cases starts
    · intro started
      obtain rfl := Option.some.inj (head.symm.trans started)
      exact absurd starts (by decide +kernel)
  | @symbol c _ mark _ =>
    have single : c.toString.toList = [c] := by simp
    refine ⟨Kind.noConfusion, ?_, ?_, Kind.noConfusion⟩
    · intro d started digit
      obtain rfl : c = d := by simpa [single] using started
      rw [mark.notDigit] at digit
      cases digit
    · intro started _
      obtain rfl : c = '.' := by simpa [single] using started
      exact .inl rfl
  | newline => constructor <;> simp [Token.newline]
  | @literal kind w _ numeric _ numeral longest =>
    have error (other : kind ≠ .number) : kind = .error ∧ ¬ Numeral w.toList :=
      ⟨numeric.resolve_left other, fun numeral => other (alone.number numeral)⟩
    exact ⟨numeral, fun _ _ _ => error, fun _ other => .inr (error other),
      fun number imprecise => longest imprecise number⟩

end Token

/-- The numbers among the tokens of a source are numerals, and what else looks like a number is not
one. The other way round, a numeral before a blank is read as a number. -/
theorem Feed.numbers_are_numerals (keywords : List String) :
    (∀ source, ∃ pieces, ((ofSource keywords source).use .tokenize).1 =
        .tokens (pieces.map (·.token)) ∧ Token.Partition keywords source.toList pieces ∧
      ∀ before p after, pieces = before ++ p :: after →
        p.Numeric (after.flatMap Token.Piece.chars)) ∧
    ∀ w c rest, Token.Numeral w → isBlank c = true →
      ((ofSource keywords (String.ofList (w ++ c :: rest))).use .next).1 =
        .token ⟨.number, String.ofList w⟩ := by
  constructor
  · intro source
    obtain ⟨pieces, same, parts, reads⟩ := Lexeme.pieces_ofSource keywords source
    refine ⟨pieces, congrArg Answer.tokens same.symm, parts, ?_⟩
    intro before p after split
    have member : p.token ∈ (Lexeme.ofSource keywords source).map (·.token) := by
      rw [← same, split]
      simp
    obtain ⟨gap, t⟩ := p
    rcases Token.legible_of_mem_ofSource member with last | legible
    · subst last
      exact Token.numeric_theEnd gap _
    · rcases reads before _ after split with last | reads
      · subst last
        exact Token.numeric_theEnd gap _
      · exact reads.numeric legible.alone gap
  · intro w c rest numeral blank
    have alone : Token.Alone keywords ⟨.number, String.ofList w⟩ := numeral.alone
    obtain ⟨ts, first⟩ := alone.first blank rest
    generalize source_eq : String.ofList (w ++ c :: rest) = source
    have tokens : (Lexeme.ofSource keywords source).map (·.token) =
        ⟨.number, String.ofList w⟩ :: ts := by
      rw [Lexeme.ofSource, Lexeme.tokens_readFrom, ← source_eq]
      simpa using first
    obtain ⟨x, xs, whole, token, -⟩ := List.map_eq_cons_iff.mp tokens
    simp only [use, next?, ahead, ofSource, whole]
    rw [token]

theorem Feed.numbers_are_numerals_unfinished :
    Token.Numeral "1e+".toList ∧ isBlank ' ' = true ∧
      ((ofSource ["set"] "1e+ x").use .next).1 = .token ⟨.number, "1e+"⟩ := by
  have one : Token.Digits ['1'] := ⟨by decide, by simp [Token.AllDigits]⟩
  have numeral : Token.Numeral "1e+".toList := .unfinished (.whole one) rfl rfl
  exact ⟨numeral, rfl, (numbers_are_numerals ["set"]).2 "1e+".toList ' ' ['x'] numeral rfl⟩

end TurtleGraphics
