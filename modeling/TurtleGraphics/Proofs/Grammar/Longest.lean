import TurtleGraphics.Proofs.Grammar.Complete.Expression
import TurtleGraphics.Proofs.Grammar.Discipline
import TurtleGraphics.Proofs.Grammar.Rules

/-!
The rules for expressions, terms and factors take in the longest phrase at the front of the tokens
to come. They match exactly where such a phrase is followed by nothing that it could go on with,
they do not match exactly where no phrase starts, and anything else is an error.
-/

namespace TurtleGraphics

namespace Phrase

open Grammar (Wanted)

variable {α β : Type}

theorem Reading.andThen_eq_passed {r : Reading α} {otherwise : Reading β}
    {next : α → List Token → Reading β} :
    r.andThen otherwise next = .passed ↔
      (∃ a ts, r = .matched a ts ∧ next a ts = .passed) ∨ r = .passed ∧ otherwise = .passed := by
  cases r <;> simp [andThen]

theorem Reading.map_eq_passed {r : Reading α} {f : α → β} : r.map f = .passed ↔ r = .passed := by
  cases r <;> simp [map, andThen]

section Readers

variable {inner : Reader Expression}

theorem factors_stop (sound : Sound Expression.tokens inner) {n : Nat} {ts rest : List Token}
    {more : Factors} (h : Factors.read inner n ts = .matched more rest) (room : ts.length ≤ n) :
    startsScaled rest = false := by
  induction n generalizing ts more with
  | zero =>
    cases h
    rw [List.eq_nil_of_length_eq_zero (Nat.le_zero.mp room)]
    rfl
  | succ n ih =>
    simp only [Factors.read, Reading.andThen_eq_matched, reduceCtorEq, and_false, or_false,
      Reading.map_eq_matched] at h
    rcases h with ⟨op, ts1, first, u, ts2, second, more, third, rfl⟩ | ⟨none, same⟩
    · rw [multiplyOperator_sound _ _ _ first, factor_sound sound _ _ _ second] at room
      simp only [List.length_append, List.length_cons, List.length_nil] at room
      exact ih third (by omega)
    · cases same
      exact multiplyOperator_eq_passed.mp none

theorem term_stops (sound : Sound Expression.tokens inner) {n : Nat} {ts rest : List Token}
    {term : (Option AddOperator × Factor) × Factors}
    (h : readTerm inner n ts = .matched term rest) (room : ts.length ≤ n + 1) :
    startsScaled rest = false := by
  simp only [readTerm, Reading.andThen_eq_matched, reduceCtorEq, and_false, or_false,
    Reading.map_eq_matched] at h
  obtain ⟨first, ts1, start, more, read, rfl⟩ := h
  have some_token := first.2.tokens_pos
  rw [signed_sound sound _ _ _ start] at room
  simp only [List.length_append] at room
  exact factors_stop sound read (by omega)

/-- After the addends no factor can follow, as none can before them. -/
theorem addends_unscaled (sound : Sound Expression.tokens inner) {m n : Nat} {ts rest : List Token}
    {further : Addends} (h : Addends.read inner m n ts = .matched further rest)
    (room : ts.length ≤ m + 1) (unscaled : startsScaled ts = false) :
    startsScaled rest = false := by
  induction n generalizing ts further with
  | zero =>
    cases h
    exact unscaled
  | succ n ih =>
    simp only [Addends.read, readPlainTerm, Reading.andThen_eq_matched, reduceCtorEq, and_false,
      or_false, Reading.map_eq_matched] at h
    rcases h with ⟨op, ts1, first, term, ts2, ⟨u, ts3, second, more, third, rfl⟩, further, fourth,
      rfl⟩ | ⟨-, same⟩
    · rw [addOperator_sound _ _ _ first, factor_sound sound _ _ _ second,
        factors_sound sound m _ _ _ third] at room
      simp only [List.length_append, List.length_cons, List.length_nil] at room
      have stops : startsScaled ts2 = false := by
        apply factors_stop sound third
        rw [factors_sound sound m _ _ _ third, List.length_append]
        omega
      exact ih fourth (by omega) stops
    · cases same
      exact unscaled

theorem factors_ne_passed (n : Nat) (ts : List Token) : Factors.read inner n ts ≠ .passed := by
  induction n generalizing ts with
  | zero => simp [Factors.read]
  | succ n ih => simp [Factors.read, Reading.andThen_eq_passed, Reading.map_eq_passed, ih]

theorem addends_ne_passed (m n : Nat) (ts : List Token) :
    Addends.read inner m n ts ≠ .passed := by
  induction n generalizing ts with
  | zero => simp [Addends.read]
  | succ n ih => simp [Addends.read, Reading.andThen_eq_passed, Reading.map_eq_passed, ih]

def startsExpression : List Token → Bool
  | [] => false
  | t :: _ => t.kind == .name || t.kind == .number || t == word "getX" || t == word "getY" ||
    t == mark "(" || t == mark "+" || t == mark "-"

/-- Once a parenthesis is open, what does not match is an error. -/
theorem readParens_eq_passed {t : Token} {ts : List Token} :
    Factor.readParens inner (t :: ts) = .passed ↔ t ≠ mark "(" := by
  simp [Factor.readParens, Reading.andThen_eq_passed, takeMark, take_eq_passed, mark]

theorem take_kind_eq_passed {kind : Token.Kind} {f : Token → α} {t : Token}
    {ts : List Token} : take ⟨kind, none⟩ f (t :: ts) = .passed ↔ t.kind ≠ kind := by
  simp [take, Wanted.accepts]

theorem signed_eq_passed {ts : List Token} :
    readSigned inner ts = .passed ↔ startsExpression ts = false := by
  cases ts with
  | nil => exact ⟨fun _ => rfl, fun _ => rfl⟩
  | cons t ts =>
    have unsigned : readSigned inner (t :: ts) = .passed ↔ startsSigned (t :: ts) = false ∧
        Factor.read inner (t :: ts) = .passed := by
      simp [readSigned, Reading.andThen_eq_passed, Reading.map_eq_passed, addOperator_eq_passed]
    have factor : Factor.read inner (t :: ts) = .passed ↔ (t.kind ≠ .name ∧ t.kind ≠ .number ∧
        t ≠ word "getX" ∧ t ≠ word "getY") ∧ t ≠ mark "(" := by
      simp [Factor.read, Factor.readPlain, either_eq_passed, readParens_eq_passed,
        take_kind_eq_passed, takeWord, take_eq_passed, word]
    rw [unsigned, factor]
    simp only [startsSigned, startsExpression, Bool.or_eq_false_iff, beq_eq_false_iff_ne]
    tauto

end Readers

inductive Extent
  | expression | term | factor

namespace Extent

def nonterminal : Extent → Nonterminal
  | expression => .expression
  | term => .term
  | factor => .factor

/-- A term is an expression with no addends, and a factor is one with no further factors either. -/
def Covers : Extent → Expression → Prop
  | expression, _ => True
  | term, .signed _ _ _ further => further = .nil
  | factor, .signed _ _ more further => more = .nil ∧ further = .nil

def goesOn : Extent → List Token → Bool
  | expression, ts => startsSigned ts || startsScaled ts
  | term, ts => startsScaled ts
  | factor, _ => false

structure Longest (x : Extent) (ts : List Token) (e : Expression) (rest : List Token) : Prop where
  tokens : ts = e.tokens ++ rest
  covers : x.Covers e
  ends : x.goesOn rest = false

def read : Extent → Nat → Reader Expression
  | expression, n => Expression.read n
  | _, 0 => fun _ => .passed
  | term, n + 1 => fun ts => (readTerm (Expression.read n) n ts).map fun t =>
    .signed t.1.1 t.1.2 t.2 .nil
  | factor, n + 1 => fun ts => (readSigned (Expression.read n) ts).map fun first =>
    .signed first.1 first.2 .nil .nil

/-- What is read is the longest phrase there. -/
theorem longest_of_read {x : Extent} {n : Nat} {ts rest : List Token} {e : Expression}
    (h : x.read n ts = .matched e rest) (room : ts.length ≤ n) : x.Longest ts e rest := by
  cases n with
  | zero => cases x <;> cases h
  | succ n =>
    have sound := expression_sound n
    cases x with
    | expression =>
      have unsigned := expression_stops h room
      refine ⟨expression_sound _ _ _ _ h, trivial, ?_⟩
      simp only [read, Expression.read, Expression.readWith, Reading.andThen_eq_matched,
        reduceCtorEq, and_false, or_false, Reading.map_eq_matched] at h
      obtain ⟨term, ts1, start, further, more, rfl⟩ := h
      have shorter : ts1.length ≤ n + 1 := by
        rw [term_sound sound n _ _ _ start] at room
        simp only [List.length_append] at room
        omega
      have unscaled := addends_unscaled sound more shorter (term_stops sound start room)
      simp [goesOn, unsigned, unscaled]
    | term =>
      obtain ⟨⟨⟨sign, u⟩, more⟩, start, rfl⟩ := Reading.map_eq_matched.mp h
      refine ⟨?_, rfl, term_stops sound start room⟩
      simpa [Expression.tokens, Addends.tokens] using term_sound sound n _ _ _ start
    | factor =>
      obtain ⟨⟨sign, u⟩, start, rfl⟩ := Reading.map_eq_matched.mp h
      refine ⟨?_, ⟨rfl, rfl⟩, rfl⟩
      simpa [Expression.tokens, Factors.tokens, Addends.tokens] using signed_sound sound _ _ _ start

/-- The longest phrase is read. -/
theorem Longest.read {x : Extent} {n : Nat} {ts rest : List Token} {e : Expression}
    (longest : x.Longest ts e rest) (room : ts.length ≤ n) : x.read n ts = .matched e rest := by
  obtain ⟨rfl, covers, ends⟩ := longest
  rw [List.length_append] at room
  cases x with
  | expression =>
    rw [goesOn, Bool.or_eq_false_iff] at ends
    exact e.complete ends.1 ends.2 (by omega)
  | term =>
    obtain ⟨sign, u, more, further⟩ := e
    obtain rfl : further = .nil := covers
    have some_token := u.tokens_pos
    simp only [Expression.tokens, Addends.tokens, List.append_nil, List.length_append] at room
    cases n with
    | zero => omega
    | succ n =>
      have first : Factor.read (Expression.read n) (u.tokens ++ (more.tokens ++ rest)) =
        .matched u (more.tokens ++ rest) := u.complete (by omega)
      have factors : Factors.read (Expression.read n) n (more.tokens ++ rest) =
        .matched more rest := more.complete ends (by omega) (by omega)
      simp only [Extent.read, readTerm, Expression.tokens, Addends.tokens, List.append_nil,
        List.append_assoc, signed_complete sign first, factors, Reading.andThen, Reading.map]
  | factor =>
    obtain ⟨sign, u, more, further⟩ := e
    obtain ⟨rfl, rfl⟩ : more = .nil ∧ further = .nil := covers
    have some_token := u.tokens_pos
    simp only [Expression.tokens, Factors.tokens, Addends.tokens, List.append_nil,
      List.length_append] at room
    cases n with
    | zero => omega
    | succ n =>
      have first : Factor.read (Expression.read n) (u.tokens ++ rest) = .matched u rest :=
        u.complete (by omega)
      simp only [Extent.read, Expression.tokens, Factors.tokens, Addends.tokens, List.append_nil,
        List.append_assoc, signed_complete sign first, Reading.andThen, Reading.map]

theorem read_eq_passed {x : Extent} {n : Nat} {ts : List Token} (room : ts.length ≤ n) :
    x.read n ts = .passed ↔ startsExpression ts = false := by
  cases n with
  | zero =>
    obtain rfl := List.eq_nil_of_length_eq_zero (Nat.le_zero.mp room)
    cases x <;> exact ⟨fun _ => rfl, fun _ => rfl⟩
  | succ n =>
    rw [← @signed_eq_passed (Expression.read n)]
    cases x with
    | expression =>
      simp [read, Expression.read, Expression.readWith, readTerm, Reading.andThen_eq_passed,
        Reading.map_eq_passed, addends_ne_passed, factors_ne_passed]
    | term =>
      simp [read, readTerm, Reading.andThen_eq_passed, Reading.map_eq_passed, factors_ne_passed]
    | factor => exact Reading.map_eq_passed

end Extent

end Phrase

namespace Grammar

open Phrase

theorem Reads.map {α β : Type} {tree : α → Tree Node} {tree' : β → Tree Node} {rule : Rule Bool}
    {read : Reader α} {f : α → β} (reads : Reads tree rule read)
    (same : ∀ a, tree' (f a) = tree a) : Reads tree' rule fun ts => (read ts).map f := by
  intro s
  apply (reads s).map
  rintro a b s' ⟨rfl, h, built⟩
  exact ⟨rfl, h, same a ▸ built⟩

theorem extent_reads (x : Extent) (n : Nat) :
    Reads Expression.tree (rule n x.nonterminal) (x.read n) := by
  cases n with
  | zero =>
    intro s
    cases x <;> exact answers_passed s _
  | succ n =>
    have inner := expression_reads n
    cases x with
    | expression => exact expression_reads (n + 1)
    | term =>
      apply (termWith_reads inner n).map
      rintro ⟨⟨sign, u⟩, more⟩
      cases sign <;> rfl
    | factor =>
      apply (factorWith_reads inner).map
      rintro ⟨sign, u⟩
      cases sign <;> rfl

structure TakesLongest (x : Extent) (s : State) (came : Attempt.Answer × State) : Prop where
  matched : came.1 = .matched true ↔ ∃ e rest, x.Longest s.feed.remaining e rest
  unique : ∀ e rest e' rest', x.Longest s.feed.remaining e rest →
    x.Longest s.feed.remaining e' rest' → e = e' ∧ rest = rest'
  taken : ∀ e rest, x.Longest s.feed.remaining e rest → came.2.feed.remaining = rest ∧
    ∃ h, came.2.stack = h :: s.stack ∧ came.2.forest.tree h = .ok e.tree
  passed : came.1 = .matched false ↔ startsExpression s.feed.remaining = false
  failed : (∃ e, came.1 = .failed e) ↔ startsExpression s.feed.remaining = true ∧
    ∀ e rest, ¬ x.Longest s.feed.remaining e rest

/-- In any state whatever, the rules for expressions, terms and factors take in the longest phrase
that is there. -/
theorem attempt_takesLongest (x : Extent) (s : State) :
    TakesLongest x s (s.attempt (.rule x.nonterminal)) := by
  have room : s.feed.remaining.length ≤ s.bound := Nat.le_refl _
  have longest (e : Expression) (rest : List Token) :
      x.read s.bound s.feed.remaining = .matched e rest ↔ x.Longest s.feed.remaining e rest :=
    ⟨fun h => Extent.longest_of_read h room, fun h => h.read room⟩
  have starts := Extent.read_eq_passed (x := x) room
  have ran : Answers _ s (x.read s.bound s.feed.remaining) (recognise x.nonterminal s) :=
    extent_reads x s.bound s
  change TakesLongest x s (answered (recognise x.nonterminal) .matched s)
  generalize x.read s.bound s.feed.remaining = reading at ran longest starts
  generalize came : recognise x.nonterminal s = result at ran
  cases ran with
  | @matched e b s' good =>
    obtain ⟨rfl, h, built⟩ := good
    have here : x.Longest s.feed.remaining e s'.feed.remaining := (longest e _).mp rfl
    have only (e' : Expression) (rest' : List Token) (other : x.Longest s.feed.remaining e' rest') :
        e = e' ∧ s'.feed.remaining = rest' := by
      simpa using (longest e' rest').mpr other
    have started : startsExpression s.feed.remaining = true := by simpa using starts
    rw [answered_ok came]
    constructor
    · simpa using ⟨e, _, here⟩
    · intro e' rest' e'' rest'' one another
      obtain ⟨rfl, rfl⟩ := only e' rest' one
      exact only e'' rest'' another
    · intro e' rest' other
      obtain ⟨rfl, rfl⟩ := only e' rest' other
      exact ⟨rfl, h, built.stack, built.grown.tree_eq⟩
    · simp [started]
    · simpa using fun _ => ⟨e, _, here⟩
  | @passed b s' good =>
    obtain ⟨rfl, -, -⟩ := good
    have none (e : Expression) (rest : List Token) : ¬ x.Longest s.feed.remaining e rest := by
      simpa using (longest e rest).not
    have started : startsExpression s.feed.remaining = false := starts.mp rfl
    rw [answered_ok came]
    constructor
    · simp [none]
    · exact fun e rest _ _ here => absurd here (none e rest)
    · exact fun e rest here => absurd here (none e rest)
    · simp [started]
    · simp [started]
  | @failed e s' =>
    have none (e : Expression) (rest : List Token) : ¬ x.Longest s.feed.remaining e rest := by
      simpa using (longest e rest).not
    have started : startsExpression s.feed.remaining = true := by simpa using starts
    rw [answered_error came]
    constructor
    · simp [none]
    · exact fun e rest _ _ here => absurd here (none e rest)
    · exact fun e rest here => absurd here (none e rest)
    · simp [started]
    · simp [started, none]

end Grammar

end TurtleGraphics
