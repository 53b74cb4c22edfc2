import TurtleGraphics.Decimal.Literal
import TurtleGraphics.Proofs.Token.Numeral
import TurtleGraphics.Text.CharClass

/-!
The texts that are read as doubles.

    number   = [sign] ("inf" | "infinity" | "nan" | mantissa [exponent])
    mantissa = digit+ | digit+ "." digit* | "." digit+
    exponent = ("e" | "E") [sign] digit+

The words may be in letters of either case. The mantissas are those of numeric literals.
-/

namespace TurtleGraphics.Decimal

open Token (AllDigits Mantissa isMarker isSign)

inductive Exponent : List Char → Prop
  | none : Exponent []
  | some {ds : List Char} {e : Char} {sign : Option Char} (marks : isMarker e = true)
    (signs : ∀ c ∈ sign, isSign c = true) (digits : Token.Digits ds) :
    Exponent (e :: (sign.toList ++ ds))

inductive Unsigned : List Char → Prop
  | word {cs : List Char}
    (word : String.ofList (cs.map Char.toLower) ∈ ["inf", "infinity", "nan"]) : Unsigned cs
  | decimal {m x : List Char} (mantissa : Mantissa m) (exponent : Exponent x) : Unsigned (m ++ x)

inductive IsNumber : List Char → Prop
  | signed {cs : List Char} {sign : Option Char} (signs : ∀ c ∈ sign, isSign c = true)
    (unsigned : Unsigned cs) : IsNumber (sign.toList ++ cs)

variable {cs ds : List Char} {c : Char}

theorem isDigit_false_of_isMarker (marks : isMarker c = true) : c.isDigit = false := by
  rcases Token.isMarker_iff.mp marks with rfl | rfl <;> decide

theorem allDigits_takeWhile (cs : List Char) : AllDigits (cs.takeWhile Char.isDigit) := by
  rw [AllDigits, ← List.all_eq_true]
  exact List.all_takeWhile

/-- A sign is taken off if there is one. -/
theorem exists_sign (cs : List Char) :
    ∃ sign : Option Char, (∀ c ∈ sign, isSign c = true) ∧ cs = sign.toList ++ (signed cs).2 := by
  unfold signed
  split
  · exact ⟨some '-', by simp [isSign], rfl⟩
  · exact ⟨some '+', by simp [isSign], rfl⟩
  · exact ⟨none, by simp, rfl⟩

theorem signed_append {sign : Option Char} (signs : ∀ c ∈ sign, isSign c = true)
    (unsigned : ∀ c ∈ cs.head?, isSign c = false) : (signed (sign.toList ++ cs)).2 = cs := by
  cases sign with
  | some c => rcases Token.isSign_iff.mp (signs c rfl) with rfl | rfl <;> rfl
  | none =>
    unfold signed
    simp only [Option.toList, List.nil_append]
    split
    · exact absurd (unsigned _ rfl) (by decide)
    · exact absurd (unsigned _ rfl) (by decide)
    · rfl

theorem exponent?_cons (e : Char) (cs : List Char) : (exponent? (e :: cs)).isSome =
    (isMarker e && (decide ((signed cs).2 ≠ []) && (signed cs).2.all Char.isDigit)) := by
  have marks : (e == 'e' || e == 'E') = isMarker e := rfl
  simp only [exponent?, marks]
  cases isMarker e with
  | false => rfl
  | true =>
    by_cases digits : (decide ((signed cs).2 ≠ []) && (signed cs).2.all Char.isDigit) = true
    · simp only [digits, if_true, Option.isSome_some, Bool.and_self]
    · simp only [digits, if_true, Option.isSome_none, Bool.true_and, Bool.false_eq_true, if_false]

theorem exponent?_isSome_iff : (exponent? cs).isSome = true ↔ Exponent cs := by
  constructor
  · intro found
    cases cs with
    | nil => exact .none
    | cons e cs =>
      rw [exponent?_cons, Bool.and_eq_true, Bool.and_eq_true, decide_eq_true_iff,
        List.all_eq_true] at found
      obtain ⟨marks, nonempty, digits⟩ := found
      obtain ⟨sign, signs, parts⟩ := exists_sign cs
      rw [parts]
      exact .some marks signs ⟨nonempty, digits⟩
  · intro exponent
    cases exponent with
    | none => rfl
    | @some ds e sign marks signs digits =>
      have unsigned : ∀ c ∈ ds.head?, isSign c = false := fun c member =>
        Token.isSign_digit (digits.all c (List.mem_of_head? member))
      rw [exponent?_cons, signed_append signs unsigned, Bool.and_eq_true, Bool.and_eq_true,
        decide_eq_true_iff, List.all_eq_true]
      exact ⟨marks, digits.nonempty, digits.all⟩

/-- An exponent does not go on with the mantissa before it. -/
theorem Exponent.stops (exponent : Exponent cs) :
    (∀ c ∈ cs.head?, c.isDigit = false) ∧ ∀ rest, cs ≠ '.' :: rest := by
  cases exponent with
  | none => simp
  | some marks =>
    constructor
    · simpa using isDigit_false_of_isMarker marks
    · intro rest same
      cases same
      cases marks

theorem stops_dropWhile (cs : List Char) :
    ∀ c ∈ (cs.dropWhile Char.isDigit).head?, c.isDigit = false := by
  induction cs with
  | nil => simp
  | cons d cs ih =>
    cases digit : d.isDigit with
    | true => simpa [digit] using ih
    | false => simp [digit]

section Scientific

variable {es x : List Char}

theorem scientific?_point (digits : AllDigits ds) (places : AllDigits es)
    (stops : ∀ c ∈ x.head?, c.isDigit = false) :
    (scientific? (ds ++ '.' :: (es ++ x))).isSome = true ↔
      ¬ (ds = [] ∧ es = []) ∧ Exponent x := by
  have dot : ∀ c ∈ ('.' :: (es ++ x)).head?, c.isDigit = false := by simp
  obtain ⟨whole, rest⟩ := Text.span_append digits dot
  obtain ⟨after, others⟩ := Text.span_append places stops
  rw [← exponent?_isSome_iff]
  simp only [scientific?, whole, rest, after, others]
  by_cases none : ds = [] ∧ es = []
  · simp [none]
  · rw [if_neg none]
    simpa using fun _ => not_and.mp none

theorem scientific?_plain (digits : AllDigits ds) (stops : ∀ c ∈ x.head?, c.isDigit = false)
    (pointless : ∀ rest, x ≠ '.' :: rest) :
    (scientific? (ds ++ x)).isSome = true ↔ ds ≠ [] ∧ Exponent x := by
  obtain ⟨whole, rest⟩ := Text.span_append digits stops
  rw [← exponent?_isSome_iff]
  simp only [scientific?, whole, rest]
  by_cases none : ds = []
  · simp [none]
  · simp [none]

/-- A text falls into digits, perhaps a point and further digits, and the rest. -/
theorem exists_parts (cs : List Char) :
    ∃ ds x, AllDigits ds ∧ (∀ c ∈ x.head?, c.isDigit = false) ∧
      ((∃ es, AllDigits es ∧ cs = ds ++ '.' :: (es ++ x)) ∨
        (∀ rest, x ≠ '.' :: rest) ∧ cs = ds ++ x) := by
  have whole : cs.takeWhile Char.isDigit ++ cs.dropWhile Char.isDigit = cs :=
    List.takeWhile_append_dropWhile
  by_cases point : ∃ r, cs.dropWhile Char.isDigit = '.' :: r
  · obtain ⟨r, rest⟩ := point
    have after : r.takeWhile Char.isDigit ++ r.dropWhile Char.isDigit = r :=
      List.takeWhile_append_dropWhile
    refine ⟨_, _, allDigits_takeWhile cs, stops_dropWhile r, .inl ⟨_, allDigits_takeWhile r, ?_⟩⟩
    rw [after, ← rest, whole]
  · exact ⟨_, _, allDigits_takeWhile cs, stops_dropWhile cs,
      .inr ⟨fun rest same => point ⟨rest, same⟩, whole.symm⟩⟩

theorem scientific?_isSome_iff :
    (scientific? cs).isSome = true ↔ ∃ m x, Mantissa m ∧ Exponent x ∧ cs = m ++ x := by
  constructor
  · intro found
    obtain ⟨ds, x, digits, stops, ⟨es, places, rfl⟩ | ⟨pointless, rfl⟩⟩ := exists_parts cs
    · obtain ⟨some_digit, exponent⟩ := (scientific?_point digits places stops).mp found
      refine ⟨ds ++ '.' :: es, x, ?_, exponent, by simp⟩
      by_cases none : ds = []
      · subst none
        exact .fraction ⟨fun empty => some_digit ⟨rfl, empty⟩, places⟩
      · exact .point ⟨none, digits⟩ places
    · obtain ⟨nonempty, exponent⟩ := (scientific?_plain digits stops pointless).mp found
      exact ⟨ds, x, .whole ⟨nonempty, digits⟩, exponent, rfl⟩
  · rintro ⟨m, x, mantissa, exponent, rfl⟩
    obtain ⟨stops, pointless⟩ := exponent.stops
    cases mantissa with
    | whole digits =>
      exact (scientific?_plain digits.all stops pointless).mpr ⟨digits.nonempty, exponent⟩
    | point digits places =>
      rw [List.append_assoc]
      have found := scientific?_point digits.all places stops
      exact found.mpr ⟨fun none => digits.nonempty none.1, exponent⟩
    | fraction places =>
      have found := scientific?_point Token.allDigits_nil places.all stops
      exact found.mpr ⟨fun none => places.nonempty none.2, exponent⟩

end Scientific

theorem lookup_words_isSome (w : String) :
    (words.lookup w).isSome = true ↔ w ∈ ["inf", "infinity", "nan"] := by
  simp only [words, List.lookup_cons, List.lookup_nil, List.mem_cons, List.not_mem_nil, or_false]
  cases inf : w == "inf" with
  | true => simpa using .inl (eq_of_beq inf)
  | false =>
    cases infinity : w == "infinity" with
    | true => simpa using .inr (.inl (eq_of_beq infinity))
    | false =>
      cases nan : w == "nan" with
      | true => simpa using .inr (.inr (eq_of_beq nan))
      | false => simp [ne_of_beq_false inf, ne_of_beq_false infinity, ne_of_beq_false nan]

theorem unsigned_iff : (words.lookup (String.ofList (cs.map Char.toLower))).isSome = true ∨
    (scientific? cs).isSome = true ↔ Unsigned cs := by
  rw [lookup_words_isSome, scientific?_isSome_iff]
  constructor
  · rintro (word | ⟨m, x, mantissa, exponent, rfl⟩)
    · exact .word word
    · exact .decimal mantissa exponent
  · intro unsigned
    cases unsigned with
    | word word => exact .inl word
    | decimal mantissa exponent => exact .inr ⟨_, _, mantissa, exponent, rfl⟩

theorem read?_isSome (text : String) :
    (read? text).isSome = true ↔ Unsigned (signed text.toList).2 := by
  rw [← unsigned_iff, read?]
  rcases signed text.toList with ⟨negative, cs⟩
  cases found : words.lookup (String.ofList (cs.map Char.toLower)) with
  | some x => simp [found]
  | none => simp [found]

/-- The words are made of letters. -/
theorem unsigned_of_word (word : String.ofList (cs.map Char.toLower) ∈ ["inf", "infinity", "nan"]) :
    ∀ c ∈ cs, isSign c = false := by
  have letters := List.mem_map_of_mem (f := String.toList) word
  rw [String.toList_ofList] at letters
  intro c member
  rw [Bool.eq_false_iff]
  intro signs
  have lower : c.toLower ∈ cs.map Char.toLower := List.mem_map_of_mem member
  have each : ∀ w ∈ ["inf", "infinity", "nan"].map String.toList,
      '+'.toLower ∉ w ∧ '-'.toLower ∉ w := by
    decide
  rcases Token.isSign_iff.mp signs with rfl | rfl
  · exact (each _ letters).1 lower
  · exact (each _ letters).2 lower

theorem Unsigned.ne_nil (unsigned : Unsigned cs) : cs ≠ [] := by
  cases unsigned with
  | word word =>
    rintro rfl
    revert word
    decide
  | decimal mantissa => simp [mantissa.ne_nil]

/-- No sign comes first. -/
theorem Unsigned.head (unsigned : Unsigned cs) : ∀ c ∈ cs.head?, isSign c = false := by
  intro c member
  cases unsigned with
  | word word => exact unsigned_of_word word c (List.mem_of_head? member)
  | @decimal m x mantissa =>
    obtain ⟨d, m, rfl⟩ := List.exists_cons_of_ne_nil (mantissa.ne_nil)
    cases member
    exact mantissa.unsigned c (by simp)

/-- No sign comes last. -/
theorem Unsigned.last (unsigned : Unsigned cs) : ∀ c ∈ cs.getLast?, isSign c = false := by
  intro c member
  cases unsigned with
  | word word => exact unsigned_of_word word c (List.mem_of_getLast? member)
  | @decimal m x mantissa exponent =>
    cases exponent with
    | none =>
      rw [List.append_nil] at member
      exact mantissa.unsigned c (List.mem_of_getLast? member)
    | @some ds e sign marks signs digits =>
      have ends := digits.ends (m ++ e :: sign.toList)
      simp only [List.append_assoc, List.cons_append] at ends
      exact Token.isSign_digit (ends c member)

/-- The texts that are read are numbers. -/
theorem read?_isSome_iff (text : String) : (read? text).isSome = true ↔ IsNumber text.toList := by
  rw [read?_isSome]
  constructor
  · intro unsigned
    obtain ⟨sign, signs, parts⟩ := exists_sign text.toList
    rw [parts]
    exact .signed signs unsigned
  · intro number
    generalize text.toList = cs at number
    cases number with
    | signed signs unsigned =>
      rw [signed_append signs unsigned.head]
      exact unsigned

/-- No number ends in a sign. -/
theorem IsNumber.last (number : IsNumber cs) : ∀ c ∈ cs.getLast?, isSign c = false := by
  cases number with
  | @signed cs sign signs unsigned =>
    intro c member
    rw [List.getLast?_append, List.getLast?_eq_some_getLast unsigned.ne_nil] at member
    apply unsigned.last
    rw [List.getLast?_eq_some_getLast unsigned.ne_nil]
    exact member

end TurtleGraphics.Decimal
