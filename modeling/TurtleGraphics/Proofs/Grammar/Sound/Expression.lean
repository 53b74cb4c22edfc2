import TurtleGraphics.Proofs.Grammar.Reading

/-!
What is read is there: the tokens of a phrase that was read, and those left, are the tokens it was
read from, and no expression in it could have gone on.
-/

namespace TurtleGraphics

namespace Phrase

open Grammar (Wanted)

variable {α β : Type}

theorem Reading.andThen_eq_matched {r : Reading α} {otherwise : Reading β}
    {next : α → List Token → Reading β} {b : β} {rest : List Token} :
    r.andThen otherwise next = .matched b rest ↔
      (∃ a ts, r = .matched a ts ∧ next a ts = .matched b rest) ∨
        r = .passed ∧ otherwise = .matched b rest := by
  cases r with
  | matched c us =>
    simp only [andThen, matched.injEq, reduceCtorEq, false_and, or_false]
    constructor
    · intro h
      exact ⟨c, us, ⟨rfl, rfl⟩, h⟩
    · rintro ⟨a, ts, ⟨rfl, rfl⟩, h⟩
      exact h
  | passed => simp [andThen]
  | failed fault us => simp [andThen]

theorem Reading.map_eq_matched {r : Reading α} {f : α → β} {b : β} {rest : List Token} :
    r.map f = .matched b rest ↔ ∃ a, r = .matched a rest ∧ f a = b := by
  rw [map, andThen_eq_matched]
  constructor
  · rintro (⟨a, ts, read, same⟩ | ⟨-, same⟩)
    · cases same
      exact ⟨a, read, rfl⟩
    · cases same
  · rintro ⟨a, read, rfl⟩
    exact .inl ⟨a, rest, read, rfl⟩

/-- The reader goes on exactly after the tokens of what it reads. -/
def Sound (tokens : α → List Token) (read : Reader α) : Prop :=
  ∀ ts a rest, read ts = .matched a rest → ts = tokens a ++ rest

theorem take_eq_matched {w : Wanted} {f : Token → α} {ts rest : List Token} {a : α}
    (h : take w f ts = .matched a rest) : ∃ t, ts = t :: rest ∧ w.accepts t = true ∧ a = f t := by
  cases ts with
  | nil => cases h
  | cons t ts =>
    by_cases wanted : w.accepts t = true
    · simp only [take, if_pos wanted, Reading.matched.injEq] at h
      exact ⟨t, by rw [h.2], wanted, h.1.symm⟩
    · simp only [take, if_neg wanted, reduceCtorEq] at h

theorem takeWord_eq_matched {text : String} {a b : α} {ts rest : List Token}
    (h : takeWord text a ts = .matched b rest) : ts = word text :: rest ∧ b = a := by
  obtain ⟨t, rfl, wanted, rfl⟩ := take_eq_matched h
  exact ⟨by rw [Wanted.eq_of_accepts wanted]; rfl, rfl⟩

theorem takeMark_eq_matched {text : String} {a b : α} {ts rest : List Token}
    (h : takeMark text a ts = .matched b rest) : ts = mark text :: rest ∧ b = a := by
  obtain ⟨t, rfl, wanted, rfl⟩ := take_eq_matched h
  exact ⟨by rw [Wanted.eq_of_accepts wanted]; rfl, rfl⟩

theorem kind_sound {kind : Token.Kind} {f : Token → α} {tokens : α → List Token}
    (same : ∀ text, tokens (f ⟨kind, text⟩) = [⟨kind, text⟩]) :
    Sound tokens (take ⟨kind, none⟩ f) := by
  intro ts a rest h
  obtain ⟨t, rfl, wanted, rfl⟩ := take_eq_matched h
  have whole := Wanted.eq_of_accepts_kind wanted
  rw [whole, same]
  rfl

theorem word_sound {text : String} {a : α} {tokens : α → List Token}
    (same : tokens a = [word text]) : Sound tokens (takeWord text a) := by
  intro ts b rest h
  obtain ⟨rfl, rfl⟩ := takeWord_eq_matched h
  rw [same]
  rfl

theorem mark_sound {text : String} {a : α} {tokens : α → List Token}
    (same : tokens a = [mark text]) : Sound tokens (takeMark text a) := by
  intro ts b rest h
  obtain ⟨rfl, rfl⟩ := takeMark_eq_matched h
  rw [same]
  rfl

theorem either_eq_matched {readers : List (Reader α)} {ts rest : List Token} {a : α}
    (h : either readers ts = .matched a rest) : ∃ r ∈ readers, r ts = .matched a rest := by
  induction readers with
  | nil => cases h
  | cons r readers ih =>
    rw [either_cons, Reading.andThen_eq_matched] at h
    rcases h with ⟨b, us, first, same⟩ | ⟨-, later⟩
    · cases same
      exact ⟨r, by simp, first⟩
    · obtain ⟨r, member, read⟩ := ih later
      exact ⟨r, by simp [member], read⟩

theorem either_sound {tokens : α → List Token} {readers : List (Reader α)}
    (each : ∀ r ∈ readers, Sound tokens r) : Sound tokens (either readers) := by
  intro ts a rest h
  obtain ⟨r, member, read⟩ := either_eq_matched h
  exact each r member _ _ _ read

theorem many_sound {tokens : α → List Token} {read : Reader α} (sound : Sound tokens read)
    (n : Nat) : Sound (·.flatMap tokens) (many read n) := by
  induction n with
  | zero =>
    intro ts as rest h
    cases h
    rfl
  | succ n ih =>
    intro ts as rest h
    rw [many, Reading.andThen_eq_matched] at h
    rcases h with ⟨a, us, first, more⟩ | ⟨-, none⟩
    · obtain ⟨as, later, rfl⟩ := Reading.map_eq_matched.mp more
      rw [sound _ _ _ first, ih _ _ _ later]
      simp
    · cases none
      rfl

theorem addOperator_sound : Sound (fun op => [mark op.text]) AddOperator.read := by
  apply either_sound
  simp only [List.forall_mem_cons]
  exact ⟨mark_sound rfl, mark_sound rfl, by simp⟩

theorem multiplyOperator_sound : Sound (fun op => [mark op.text]) MultiplyOperator.read := by
  apply either_sound
  simp only [List.forall_mem_cons]
  exact ⟨mark_sound rfl, mark_sound rfl, by simp⟩

theorem comparator_sound : Sound (fun op => [mark op.text]) Comparator.read := by
  apply either_sound
  simp only [List.forall_mem_cons]
  exact ⟨mark_sound rfl, mark_sound rfl, mark_sound rfl, by simp⟩

section Expressions

variable {inner : Reader Expression}

theorem factor_sound (sound : Sound Expression.tokens inner) :
    Sound Factor.tokens (Factor.read inner) := by
  have plain : Sound Factor.tokens Factor.readPlain := by
    apply either_sound
    simp only [List.forall_mem_cons]
    exact ⟨kind_sound fun _ => rfl, kind_sound fun _ => rfl, word_sound rfl, word_sound rfl,
      by simp⟩
  have parens : Sound Factor.tokens (Factor.readParens inner) := by
    intro ts u rest h
    simp only [Factor.readParens, Reading.andThen_eq_matched, reduceCtorEq, and_false, or_false,
      Reading.matched.injEq] at h
    obtain ⟨_, ts1, opened, e, ts2, read, _, ts3, closed, rfl, rfl⟩ := h
    rw [(takeMark_eq_matched opened).1, sound _ _ _ read, (takeMark_eq_matched closed).1]
    simp [Factor.tokens]
  apply either_sound
  simp only [List.forall_mem_cons]
  exact ⟨plain, parens, by simp⟩

theorem factors_sound (sound : Sound Expression.tokens inner) (n : Nat) :
    Sound Factors.tokens (Factors.read inner n) := by
  induction n with
  | zero =>
    intro ts more rest h
    cases h
    rfl
  | succ n ih =>
    intro ts more rest h
    simp only [Factors.read, Reading.andThen_eq_matched, reduceCtorEq, and_false, or_false,
      Reading.map_eq_matched] at h
    rcases h with ⟨op, ts1, first, u, ts2, second, more, third, rfl⟩ | ⟨-, none⟩
    · rw [multiplyOperator_sound _ _ _ first, factor_sound sound _ _ _ second, ih _ _ _ third]
      simp [Factors.tokens]
    · cases none
      rfl

theorem plainTerm_sound (sound : Sound Expression.tokens inner) (n : Nat) :
    Sound (fun term => term.1.tokens ++ term.2.tokens) (readPlainTerm inner n) := by
  intro ts term rest h
  simp only [readPlainTerm, Reading.andThen_eq_matched, reduceCtorEq, and_false, or_false,
    Reading.map_eq_matched] at h
  obtain ⟨u, ts1, first, more, second, rfl⟩ := h
  rw [factor_sound sound _ _ _ first, factors_sound sound n _ _ _ second, List.append_assoc]

theorem addends_sound (sound : Sound Expression.tokens inner) (m n : Nat) :
    Sound Addends.tokens (Addends.read inner m n) := by
  induction n with
  | zero =>
    intro ts further rest h
    cases h
    rfl
  | succ n ih =>
    intro ts further rest h
    simp only [Addends.read, Reading.andThen_eq_matched, reduceCtorEq, and_false, or_false,
      Reading.map_eq_matched] at h
    rcases h with ⟨op, ts1, first, term, ts2, second, further, third, rfl⟩ | ⟨-, none⟩
    · rw [addOperator_sound _ _ _ first, plainTerm_sound sound m _ _ _ second, ih _ _ _ third]
      simp [Addends.tokens]
    · cases none
      rfl

theorem signed_sound (sound : Sound Expression.tokens inner) :
    Sound (fun first => first.1.toList.map (fun op => mark op.text) ++ first.2.tokens)
      (readSigned inner) := by
  intro ts first rest h
  simp only [readSigned, Reading.andThen_eq_matched, reduceCtorEq, and_false, or_false,
    Reading.map_eq_matched, Reading.matched.injEq] at h
  rcases h with ⟨op, ts1, sign, u, ts2, read, rfl, rfl⟩ | ⟨-, u, read, rfl⟩
  · rw [addOperator_sound _ _ _ sign, factor_sound sound _ _ _ read]
    rfl
  · rw [factor_sound sound _ _ _ read]
    rfl

theorem term_sound (sound : Sound Expression.tokens inner) (n : Nat) :
    Sound (fun term => term.1.1.toList.map (fun op => mark op.text) ++
      (term.1.2.tokens ++ term.2.tokens)) (readTerm inner n) := by
  intro ts term rest h
  simp only [readTerm, Reading.andThen_eq_matched, reduceCtorEq, and_false, or_false,
    Reading.map_eq_matched] at h
  obtain ⟨first, ts1, start, more, read, rfl⟩ := h
  rw [signed_sound sound _ _ _ start, factors_sound sound n _ _ _ read]
  simp

theorem expressionWith_sound (sound : Sound Expression.tokens inner) (n : Nat) :
    Sound Expression.tokens (Expression.readWith inner n) := by
  intro ts e rest h
  simp only [Expression.readWith, Reading.andThen_eq_matched, reduceCtorEq, and_false, or_false,
    Reading.map_eq_matched] at h
  obtain ⟨term, ts1, start, further, read, rfl⟩ := h
  rw [term_sound sound n _ _ _ start, addends_sound sound n n _ _ _ read]
  simp [Expression.tokens]

end Expressions

theorem expression_sound (n : Nat) : Sound Expression.tokens (Expression.read n) := by
  induction n with
  | zero =>
    intro ts e rest h
    cases h
  | succ n ih => exact expressionWith_sound ih n

mutual

theorem Factor.longest : (u : Factor) → u.Longest
  | .name _ | .number _ | .getX | .getY => trivial
  | .parens e => e.longestBefore rfl

theorem Factors.longest : (more : Factors) → more.Longest
  | .nil => trivial
  | .cons _ u more => ⟨u.longest, more.longest⟩

theorem Addends.longest : (further : Addends) → further.Longest
  | .nil => trivial
  | .cons _ u more further => ⟨u.longest, more.longest, further.longest⟩

/-- What stands in parentheses is followed by one, so only what follows the whole counts. -/
theorem Expression.longestBefore {rest : List Token} (stops : startsSigned rest = false) :
    (e : Expression) → e.LongestBefore rest
  | .signed _ u more further => ⟨stops, u.longest, more.longest, further.longest⟩

end

theorem Factor.tokens_pos (u : Factor) : 0 < u.tokens.length := by
  cases u <;> simp [tokens]

theorem addOperator_eq_passed {ts : List Token} :
    AddOperator.read ts = .passed ↔ startsSigned ts = false := by
  cases ts with
  | nil => exact ⟨fun _ => rfl, fun _ => rfl⟩
  | cons t ts =>
    simp [AddOperator.read, either_eq_passed, takeMark, take_eq_passed, startsSigned, mark]

theorem addends_stop {inner : Reader Expression} (sound : Sound Expression.tokens inner)
    {m n : Nat} {ts rest : List Token} {further : Addends}
    (h : Addends.read inner m n ts = .matched further rest) (room : ts.length ≤ n) :
    startsSigned rest = false := by
  induction n generalizing ts further with
  | zero =>
    cases h
    rw [List.eq_nil_of_length_eq_zero (Nat.le_zero.mp room)]
    rfl
  | succ n ih =>
    simp only [Addends.read, Reading.andThen_eq_matched, reduceCtorEq, and_false, or_false,
      Reading.map_eq_matched] at h
    rcases h with ⟨op, ts1, first, term, ts2, second, further, third, rfl⟩ | ⟨none, same⟩
    · rw [addOperator_sound _ _ _ first, plainTerm_sound sound m _ _ _ second] at room
      simp only [List.length_append, List.length_cons, List.length_nil] at room
      exact ih third (by omega)
    · cases same
      exact addOperator_eq_passed.mp none

theorem expression_stops {n : Nat} {ts rest : List Token} {e : Expression}
    (h : Expression.read n ts = .matched e rest) (room : ts.length ≤ n) :
    startsSigned rest = false := by
  cases n with
  | zero => cases h
  | succ n =>
    simp only [Expression.read, Expression.readWith, Reading.andThen_eq_matched, reduceCtorEq,
      and_false, or_false, Reading.map_eq_matched] at h
    obtain ⟨term, ts1, start, further, read, rfl⟩ := h
    have sound := expression_sound n
    have first := term.1.2.tokens_pos
    apply addends_stop sound read
    rw [term_sound sound n _ _ _ start] at room
    simp only [List.length_append] at room
    omega

end Phrase

end TurtleGraphics
