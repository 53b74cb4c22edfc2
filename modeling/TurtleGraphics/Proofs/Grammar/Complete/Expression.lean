import TurtleGraphics.Proofs.Grammar.Sound.Expression

/-!
What is there is read: an expression is found again in front of any tokens that cannot go on with
it, and nothing else is found there.
-/

namespace TurtleGraphics.Phrase

def startsScaled : List Token → Bool
  | [] => false
  | t :: _ => t == mark "*" || t == mark "/"

theorem multiplyOperator_eq_passed {ts : List Token} :
    MultiplyOperator.read ts = .passed ↔ startsScaled ts = false := by
  cases ts with
  | nil => exact ⟨fun _ => rfl, fun _ => rfl⟩
  | cons t ts =>
    simp [MultiplyOperator.read, either_eq_passed, takeMark, take_eq_passed, startsScaled, mark]

theorem addOperator_complete (op : AddOperator) (rest : List Token) :
    AddOperator.read (mark op.text :: rest) = .matched op rest := by
  cases op <;> rfl

theorem multiplyOperator_complete (op : MultiplyOperator) (rest : List Token) :
    MultiplyOperator.read (mark op.text :: rest) = .matched op rest := by
  cases op <;> rfl

theorem comparator_complete (op : Comparator) (rest : List Token) :
    Comparator.read (mark op.text :: rest) = .matched op rest := by
  cases op <;> rfl

theorem Factor.not_startsSigned (u : Factor) (ts : List Token) :
    startsSigned (u.tokens ++ ts) = false := by
  cases u <;> rfl

theorem Addends.not_startsScaled (further : Addends) {ts : List Token}
    (stops : startsScaled ts = false) : startsScaled (further.tokens ++ ts) = false := by
  cases further with
  | nil => exact stops
  | cons op u more further => cases op <;> rfl

theorem signed_complete {inner : Reader Expression} (sign : Option AddOperator) {u : Factor}
    {ts : List Token} (first : Factor.read inner (u.tokens ++ ts) = .matched u ts) :
    readSigned inner (sign.toList.map (fun op => mark op.text) ++ (u.tokens ++ ts)) =
      .matched (sign, u) ts := by
  cases sign with
  | none =>
    have unsigned := addOperator_eq_passed.mpr (u.not_startsSigned ts)
    simp only [Option.toList, List.map_nil, List.nil_append, readSigned, unsigned, first,
      Reading.andThen, Reading.map]
  | some op =>
    simp only [Option.toList, List.map_cons, List.map_nil, List.cons_append, List.nil_append,
      readSigned, addOperator_complete, first, Reading.andThen]

mutual

theorem Factor.complete {n : Nat} {rest : List Token} :
    (u : Factor) → u.tokens.length ≤ n + 1 →
      Factor.read (Expression.read n) (u.tokens ++ rest) = .matched u rest
  | .name _, _ => rfl
  | .number _, _ => rfl
  | .getX, _ => rfl
  | .getY, _ => rfl
  | .parens e, room => by
    simp only [Factor.tokens, List.length_cons, List.length_append, List.length_nil] at room
    have inner : Expression.read n (e.tokens ++ mark ")" :: rest) =
        .matched e (mark ")" :: rest) := e.complete rfl rfl (by omega)
    have plain (ts : List Token) : Factor.readPlain (mark "(" :: ts) = .passed := rfl
    have opening (ts : List Token) : takeMark "(" () (mark "(" :: ts) = .matched () ts := rfl
    have closing : takeMark ")" () (mark ")" :: rest) = .matched () rest := rfl
    simp only [Factor.tokens, List.cons_append, List.append_assoc, List.nil_append, Factor.read,
      either, plain, Factor.readParens, opening, inner, closing, Reading.andThen]

theorem Factors.complete {n m : Nat} {rest : List Token} (stops : startsScaled rest = false) :
    (more : Factors) → more.tokens.length ≤ m → more.tokens.length ≤ n + 1 →
      Factors.read (Expression.read n) m (more.tokens ++ rest) = .matched more rest
  | .nil, _, _ => by
    cases m with
    | zero => rfl
    | succ m =>
      have none := multiplyOperator_eq_passed.mpr stops
      simp only [Factors.tokens, List.nil_append, Factors.read, none, Reading.andThen]
  | .cons op u more, steps, room => by
    simp only [Factors.tokens, List.length_cons, List.length_append] at steps room
    cases m with
    | zero => omega
    | succ m =>
      have first : Factor.read (Expression.read n) (u.tokens ++ (more.tokens ++ rest)) =
        .matched u (more.tokens ++ rest) := u.complete (by omega)
      have others : Factors.read (Expression.read n) m (more.tokens ++ rest) =
        .matched more rest := more.complete stops (by omega) (by omega)
      simp only [Factors.tokens, List.cons_append, List.append_assoc, Factors.read,
        multiplyOperator_complete, first, others, Reading.andThen, Reading.map]

theorem Addends.complete {n m k : Nat} {rest : List Token} (stops : startsSigned rest = false)
    (scaled : startsScaled rest = false) :
    (further : Addends) → further.tokens.length ≤ k → further.tokens.length ≤ m →
      further.tokens.length ≤ n + 1 →
      Addends.read (Expression.read n) m k (further.tokens ++ rest) = .matched further rest
  | .nil, _, _, _ => by
    cases k with
    | zero => rfl
    | succ k =>
      have none := addOperator_eq_passed.mpr stops
      simp only [Addends.tokens, List.nil_append, Addends.read, none, Reading.andThen]
  | .cons op u more further, steps, inner, room => by
    simp only [Addends.tokens, List.length_cons, List.length_append] at steps inner room
    cases k with
    | zero => omega
    | succ k =>
      have first : Factor.read (Expression.read n)
          (u.tokens ++ (more.tokens ++ (further.tokens ++ rest))) =
        .matched u (more.tokens ++ (further.tokens ++ rest)) := u.complete (by omega)
      have factors : Factors.read (Expression.read n) m
          (more.tokens ++ (further.tokens ++ rest)) = .matched more (further.tokens ++ rest) :=
        more.complete (further.not_startsScaled scaled) (by omega) (by omega)
      have others : Addends.read (Expression.read n) m k (further.tokens ++ rest) =
        .matched further rest := further.complete stops scaled (by omega) (by omega) (by omega)
      simp only [Addends.tokens, List.cons_append, List.append_assoc, Addends.read, readPlainTerm,
        addOperator_complete, first, factors, others, Reading.andThen, Reading.map]

theorem Expression.complete {n : Nat} {rest : List Token} (stops : startsSigned rest = false)
    (scaled : startsScaled rest = false) :
    (e : Expression) → e.tokens.length ≤ n →
      Expression.read n (e.tokens ++ rest) = .matched e rest
  | .signed sign u more further, room => by
    have some_token := u.tokens_pos
    simp only [Expression.tokens, List.length_append] at room
    cases n with
    | zero => omega
    | succ n =>
      have first : Factor.read (Expression.read n)
          (u.tokens ++ (more.tokens ++ (further.tokens ++ rest))) =
        .matched u (more.tokens ++ (further.tokens ++ rest)) := u.complete (by omega)
      have factors : Factors.read (Expression.read n) n
          (more.tokens ++ (further.tokens ++ rest)) = .matched more (further.tokens ++ rest) :=
        more.complete (further.not_startsScaled scaled) (by omega) (by omega)
      have others : Addends.read (Expression.read n) n n (further.tokens ++ rest) =
        .matched further rest := further.complete stops scaled (by omega) (by omega) (by omega)
      have start : readSigned (Expression.read n)
          ((Expression.signed sign u more further).tokens ++ rest) =
        .matched (sign, u) (more.tokens ++ (further.tokens ++ rest)) := by
        simpa [Expression.tokens] using signed_complete sign first
      simp only [Expression.read, Expression.readWith, readTerm, start, factors, others,
        Reading.andThen, Reading.map]

end

end TurtleGraphics.Phrase
