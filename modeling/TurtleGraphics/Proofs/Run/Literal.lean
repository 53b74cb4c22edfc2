import TurtleGraphics.Proofs.Decimal.Reader
import TurtleGraphics.Proofs.Token.Number
import TurtleGraphics.Run.Value

/-!
Which literals have a value. A numeral without its precision letter is a number, unless it breaks
off after the sign of an exponent.
-/

namespace TurtleGraphics

namespace Token

inductive Unfinished : List Char → Prop
  | intro {m : List Char} {e s : Char} (mantissa : Mantissa m) (marks : isMarker e = true)
    (signs : isSign s = true) : Unfinished (m ++ [e, s])

def unmarked (cs : List Char) : List Char :=
  (cs.reverse.dropWhile isPrecision).reverse

variable {cs w : List Char} {c : Char}

theorem unmarked_concat (precise : isPrecision c = true) : unmarked (cs ++ [c]) = unmarked cs := by
  simp [unmarked, precise]

theorem unmarked_eq_self (imprecise : ∀ c ∈ cs.getLast?, isPrecision c = false) :
    unmarked cs = cs := by
  rcases List.eq_nil_or_concat cs with rfl | ⟨front, c, rfl⟩
  · rfl
  · have last : isPrecision c = false := imprecise c (by simp)
    simp [unmarked, last]

theorem Unfinished.last (unfinished : Unfinished w) : ∃ c ∈ w.getLast?, isSign c = true := by
  cases unfinished with
  | @intro m e s _ _ signs => exact ⟨s, by simp, signs⟩

/-- What breaks off after the sign of an exponent is not a number. -/
theorem Unfinished.not_isNumber (unfinished : Unfinished w) : ¬ Decimal.IsNumber (unmarked w) := by
  obtain ⟨c, last, signs⟩ := unfinished.last
  have whole : unmarked w = w := by
    apply unmarked_eq_self
    intro d member
    cases Option.some.inj (last.symm.trans member)
    exact isPrecision_sign signs
  intro number
  rw [whole] at number
  have other := number.last c last
  rw [signs] at other
  cases other

/-- Any other numeral is one, but for the letter for its precision. -/
theorem Numeral.isNumber (numeral : Numeral w) :
    (Decimal.IsNumber (unmarked w) ∧ ∀ c ∈ w.getLast?, isSign c = false) ∨ Unfinished w := by
  have number {u : List Char} (unsigned : Decimal.Unsigned u) : Decimal.IsNumber u :=
    @Decimal.IsNumber.signed _ none (by simp) unsigned
  have whole {m : List Char} (mantissa : Mantissa m) : Decimal.IsNumber (unmarked m) := by
    rw [unmarked_eq_self fun c last => mantissa.imprecise c (List.mem_of_getLast? last)]
    have unsigned := Decimal.Unsigned.decimal mantissa .none
    rw [List.append_nil] at unsigned
    exact number unsigned
  cases numeral with
  | plain mantissa =>
    exact .inl ⟨whole mantissa, fun c last => mantissa.unsigned c (List.mem_of_getLast? last)⟩
  | precise mantissa digit precise =>
    refine .inl ⟨?_, by simpa using isSign_precision precise⟩
    rw [unmarked_concat precise]
    exact whole mantissa
  | @scientific m ds e sign precision mantissa marks signs digits precise =>
    have ends := digits.ends (m ++ e :: sign.toList)
    simp only [List.append_assoc, List.cons_append] at ends
    have body : Decimal.IsNumber (unmarked (m ++ e :: (sign.toList ++ ds))) := by
      rw [unmarked_eq_self fun c last => isPrecision_digit (ends c last)]
      exact number (.decimal mantissa (.some marks signs digits))
    cases precision with
    | none =>
      rw [Option.toList_none, List.append_nil]
      exact .inl ⟨body, fun c last => isSign_digit (ends c last)⟩
    | some p =>
      have precise := precise p rfl
      have parts : m ++ e :: (sign.toList ++ ds ++ (some p).toList) =
          (m ++ e :: (sign.toList ++ ds)) ++ [p] := by simp
      rw [parts, unmarked_concat precise, List.getLast?_concat]
      exact .inl ⟨body, by simpa using isSign_precision precise⟩
  | unfinished mantissa marks signs => exact .inr ⟨mantissa, marks, signs⟩

end Token

open Token (Numeral Unfinished unmarked)

/-- A literal has a value if what is left of it is a number. -/
theorem literalValue_cases (text : String) :
    (Decimal.IsNumber (unmarked text.toList) ∧ ∃ x, literalValue text = .ok x) ∨
      ¬ Decimal.IsNumber (unmarked text.toList) ∧
        literalValue text = .error (.invalidNumber text) := by
  have reads := Decimal.read?_isSome_iff (String.ofList (unmarked text.toList))
  rw [String.toList_ofList] at reads
  rw [← reads]
  cases found : Decimal.read? (String.ofList (unmarked text.toList)) with
  | some x =>
    refine .inl ⟨rfl, x, ?_⟩
    unfold unmarked at found
    simp only [literalValue, found]
  | none =>
    refine .inr ⟨by simp, ?_⟩
    unfold unmarked at found
    simp only [literalValue, found]

theorem literalValue_ok_iff {text : String} (numeral : Numeral text.toList) :
    (∃ x, literalValue text = .ok x) ↔ ∀ c ∈ text.toList.getLast?, Token.isSign c = false := by
  rcases numeral.isNumber with ⟨number, unsigned⟩ | unfinished
  · rcases literalValue_cases text with ⟨-, value⟩ | ⟨other, -⟩
    · exact ⟨fun _ => unsigned, fun _ => value⟩
    · exact absurd number other
  · obtain ⟨c, last, signs⟩ := unfinished.last
    rcases literalValue_cases text with ⟨number, -⟩ | ⟨-, error⟩
    · exact absurd number unfinished.not_isNumber
    · constructor
      · rintro ⟨x, value⟩
        rw [error] at value
        cases value
      · intro unsigned
        rw [unsigned c last] at signs
        cases signs

theorem literalValue_error_iff {text : String} (numeral : Numeral text.toList) {e : RuntimeError} :
    literalValue text = .error e ↔ e = .invalidNumber text ∧ Unfinished text.toList := by
  rcases literalValue_cases text with ⟨number, x, value⟩ | ⟨other, error⟩
  · have finished : ¬ Unfinished text.toList := fun unfinished => unfinished.not_isNumber number
    simp [value, finished]
  · have unfinished : Unfinished text.toList :=
      numeral.isNumber.resolve_left fun finished => other finished.1
    simp [error, unfinished, eq_comm]

end TurtleGraphics
