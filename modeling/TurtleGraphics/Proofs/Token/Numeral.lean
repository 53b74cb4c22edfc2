import TurtleGraphics.Token.Literal

/-!
The language of numeric literals.

    numeral  = mantissa | mantissa precision | mantissa marker [sign] digit+ [precision]
             | mantissa marker sign
    mantissa = digit+ | digit+ "." digit* | "." digit+

A precision letter right after a mantissa has to follow a digit. Each stage of reading a literal has
a language of its own: what has been read when the stage is reached.
-/

namespace TurtleGraphics.Token

def AllDigits (cs : List Char) : Prop :=
  ∀ c ∈ cs, c.isDigit = true

structure Digits (cs : List Char) : Prop where
  nonempty : cs ≠ []
  all : AllDigits cs

inductive Mantissa : List Char → Prop
  | whole {ds : List Char} (digits : Digits ds) : Mantissa ds
  | point {ds es : List Char} (digits : Digits ds) (places : AllDigits es) :
    Mantissa (ds ++ '.' :: es)
  | fraction {es : List Char} (places : Digits es) : Mantissa ('.' :: es)

inductive Numeral : List Char → Prop
  | plain {m : List Char} (mantissa : Mantissa m) : Numeral m
  | precise {m : List Char} {s : Char} (mantissa : Mantissa m)
    (digit : ∀ c ∈ m.getLast?, c.isDigit = true) (precision : isPrecision s = true) :
    Numeral (m ++ [s])
  | scientific {m ds : List Char} {e : Char} {sign precision : Option Char}
    (mantissa : Mantissa m) (marker : isMarker e = true) (signs : ∀ c ∈ sign, isSign c = true)
    (digits : Digits ds) (precise : ∀ c ∈ precision, isPrecision c = true) :
    Numeral (m ++ e :: (sign.toList ++ ds ++ precision.toList))
  /-- an exponent with a sign and no digits -/
  | unfinished {m : List Char} {e s : Char} (mantissa : Mantissa m) (marker : isMarker e = true)
    (sign : isSign s = true) : Numeral (m ++ [e, s])

theorem isMarker_iff {c : Char} : isMarker c = true ↔ c = 'e' ∨ c = 'E' := by
  simp [isMarker]

theorem isSign_iff {c : Char} : isSign c = true ↔ c = '+' ∨ c = '-' := by
  simp [isSign]

theorem isPrecision_iff {c : Char} :
    isPrecision c = true ↔ c = 'f' ∨ c = 'F' ∨ c = 'd' ∨ c = 'D' := by
  simp [isPrecision, or_assoc]

theorem isSign_digit {c : Char} (digit : c.isDigit = true) : isSign c = false := by
  rw [Bool.eq_false_iff]
  intro signs
  rcases isSign_iff.mp signs with rfl | rfl <;> cases digit

theorem isPrecision_digit {c : Char} (digit : c.isDigit = true) : isPrecision c = false := by
  rw [Bool.eq_false_iff]
  intro precise
  rcases isPrecision_iff.mp precise with rfl | rfl | rfl | rfl <;> cases digit

theorem isSign_precision {c : Char} (precise : isPrecision c = true) : isSign c = false := by
  rcases isPrecision_iff.mp precise with rfl | rfl | rfl | rfl <;> decide

theorem isPrecision_sign {c : Char} (signs : isSign c = true) : isPrecision c = false := by
  rcases isSign_iff.mp signs with rfl | rfl <;> decide

/-- A mantissa is made of digits and points. -/
theorem Mantissa.chars {m : List Char} (mantissa : Mantissa m) :
    ∀ c ∈ m, c.isDigit = true ∨ c = '.' := by
  have all {ds : List Char} (digits : AllDigits ds) : ∀ c ∈ ds, c.isDigit = true ∨ c = '.' :=
    fun c member => .inl (digits c member)
  cases mantissa with
  | whole digits => exact all digits.all
  | point digits places =>
    exact List.forall_mem_append.mpr
      ⟨all digits.all, List.forall_mem_cons.mpr ⟨.inr rfl, all places⟩⟩
  | fraction places => exact List.forall_mem_cons.mpr ⟨.inr rfl, all places.all⟩

theorem Mantissa.unsigned {m : List Char} (mantissa : Mantissa m) :
    ∀ c ∈ m, isSign c = false := by
  intro c member
  rcases mantissa.chars c member with digit | rfl
  · exact isSign_digit digit
  · decide

theorem Mantissa.imprecise {m : List Char} (mantissa : Mantissa m) :
    ∀ c ∈ m, isPrecision c = false := by
  intro c member
  rcases mantissa.chars c member with digit | rfl
  · exact isPrecision_digit digit
  · decide

theorem Mantissa.ne_nil {m : List Char} (mantissa : Mantissa m) : m ≠ [] := by
  cases mantissa with
  | whole digits => exact digits.nonempty
  | point | fraction => simp

theorem allDigits_nil : AllDigits [] :=
  List.forall_mem_nil _

theorem AllDigits.append {cs ds : List Char} (left : AllDigits cs) (right : AllDigits ds) :
    AllDigits (cs ++ ds) :=
  List.forall_mem_append.mpr ⟨left, right⟩

theorem AllDigits.snoc {cs : List Char} {c : Char} (digits : AllDigits cs)
    (digit : c.isDigit = true) : AllDigits (cs ++ [c]) :=
  digits.append (by simpa [AllDigits] using digit)

theorem AllDigits.digits_snoc {cs : List Char} {c : Char} (digits : AllDigits cs)
    (digit : c.isDigit = true) : Digits (cs ++ [c]) :=
  ⟨by simp, digits.snoc digit⟩

/-- A text that ends in digits ends on a digit. -/
theorem Digits.ends {ds : List Char} (digits : Digits ds) (cs : List Char) :
    ∀ c ∈ (cs ++ ds).getLast?, c.isDigit = true := by
  intro c member
  rw [List.getLast?_append, List.getLast?_eq_some_getLast digits.nonempty] at member
  obtain rfl := Option.some.inj member
  exact digits.all _ (List.getLast_mem _)

namespace Stage

inductive Spells : Stage → List Char → Prop
  | whole {ds : List Char} (digits : Digits ds) : Spells whole ds
  | dot : Spells dot ['.']
  | point {ds : List Char} (digits : Digits ds) : Spells point (ds ++ ['.'])
  | fraction {ds es : List Char} (digits : AllDigits ds) (places : Digits es) :
    Spells fraction (ds ++ '.' :: es)
  | marker {m : List Char} {e : Char} (mantissa : Mantissa m) (marks : isMarker e = true) :
    Spells marker (m ++ [e])
  | sign {m : List Char} {e s : Char} (mantissa : Mantissa m) (marks : isMarker e = true)
    (signs : isSign s = true) : Spells sign (m ++ [e, s])
  | exponent {m ds : List Char} {e : Char} {sign : Option Char} (mantissa : Mantissa m)
    (marks : isMarker e = true) (signs : ∀ c ∈ sign, isSign c = true) (digits : Digits ds) :
    Spells exponent (m ++ e :: (sign.toList ++ ds))

def isMantissa : Stage → Bool
  | whole | point | fraction => true
  | _ => false

variable {s further : Stage} {c : Char}

/-- The ways in which a literal goes on. -/
theorem next_eq_more (h : s.next c = .more further) :
    (c.isDigit = true ∧ further = s.digit) ∨
      (isMarker c = true ∧ s.isMantissa = true ∧ further = marker) ∨
        (isSign c = true ∧ s = marker ∧ further = sign) ∨
          (c = '.' ∧ s = whole ∧ further = point) := by
  unfold next at h
  split at h
  · rename_i digit
    cases h
    exact .inl ⟨digit, rfl⟩
  split at h
  · cases h
  split at h
  · rename_i marks
    refine .inr (.inl ⟨marks, ?_⟩)
    cases s <;> cases h <;> exact ⟨rfl, rfl⟩
  split at h
  · rename_i signs
    refine .inr (.inr (.inl ⟨signs, ?_⟩))
    cases s <;> cases h
    exact ⟨rfl, rfl⟩
  split at h
  · rename_i dot
    refine .inr (.inr (.inr ⟨by simpa using dot, ?_⟩))
    cases s <;> cases h
    exact ⟨rfl, rfl⟩
  · cases h

/-- Only a precision letter after a digit ends a number at once. -/
theorem next_eq_last_number (h : s.next c = .last .number) :
    isPrecision c = true ∧ s.precision = .number := by
  unfold next at h
  split at h
  · cases h
  split at h
  · rename_i precise
    exact ⟨precise, Next.last.inj h⟩
  · repeat' split at h
    all_goals cases h

theorem isDigit_of_next_eq_stop (h : s.next c = .stop) : c.isDigit = false := by
  unfold next at h
  split at h
  · cases h
  · rename_i other
    simpa using other

namespace Spells

variable {cs : List Char}

theorem eq_dot (spells : Spells .dot cs) : cs = ['.'] := by
  cases spells
  rfl

theorem mantissa (spells : Spells s cs) (started : s.isMantissa = true) : Mantissa cs := by
  cases spells with
  | whole digits => exact .whole digits
  | point digits => exact .point digits allDigits_nil
  | @fraction ds es digits places =>
    by_cases none : ds = []
    · subst none
      exact .fraction places
    · exact .point ⟨none, digits⟩ places.all
  | dot | marker | sign | exponent => cases started

theorem digit (spells : Spells s cs) (digit : c.isDigit = true) : Spells s.digit (cs ++ [c]) := by
  have single : Digits [c] := ⟨by simp, by simpa [AllDigits] using digit⟩
  cases spells with
  | whole digits => exact .whole (digits.all.digits_snoc digit)
  | dot => exact .fraction allDigits_nil single
  | @point ds digits =>
    rw [List.append_assoc]
    exact .fraction digits.all single
  | fraction digits places =>
    rw [List.append_assoc, List.cons_append]
    exact .fraction digits (places.all.digits_snoc digit)
  | marker mantissa marks =>
    rw [List.append_assoc]
    exact @exponent _ _ _ none mantissa marks (by simp) single
  | @sign m e s mantissa marks signs =>
    rw [List.append_assoc]
    exact @exponent _ _ _ (some s) mantissa marks (by simpa using signs) single
  | exponent mantissa marks signs digits =>
    rw [List.append_assoc, List.cons_append, List.append_assoc]
    exact .exponent mantissa marks signs (digits.all.digits_snoc digit)

/-- What goes on spells what the next stage stands for. -/
theorem more (spells : Spells s cs) (h : s.next c = .more further) :
    Spells further (cs ++ [c]) := by
  rcases next_eq_more h with ⟨digit, rfl⟩ | ⟨marks, started, rfl⟩ | ⟨signs, rfl, rfl⟩ |
    ⟨rfl, rfl, rfl⟩
  · exact spells.digit digit
  · exact .marker (spells.mantissa started) marks
  · cases spells with
    | marker mantissa marks =>
      rw [List.append_assoc]
      exact .sign mantissa marks signs
  · cases spells with
    | whole digits => exact .point digits

/-- What ends as a number is a numeral. -/
theorem numeral (spells : Spells s cs) (number : s.kind = .number) : Numeral cs := by
  have plain (started : s.isMantissa = true) : Numeral cs := .plain (spells.mantissa started)
  cases spells with
  | whole | point | fraction => exact plain rfl
  | dot | marker => cases number
  | sign mantissa marks signs => exact .unfinished mantissa marks signs
  | exponent mantissa marks signs digits =>
    have numeral := @Numeral.scientific _ _ _ _ none mantissa marks signs digits (by simp)
    simpa using numeral

theorem last (spells : Spells s cs) (h : s.next c = .last .number) : Numeral (cs ++ [c]) := by
  obtain ⟨precise, number⟩ := next_eq_last_number h
  cases spells with
  | whole digits => exact .precise (.whole digits) (digits.ends []) precise
  | @fraction ds es digits places =>
    have ends := places.ends (ds ++ ['.'])
    rw [List.append_assoc] at ends
    exact .precise (mantissa (.fraction digits places) rfl) ends precise
  | exponent mantissa marks signs digits =>
    have numeral := @Numeral.scientific _ _ _ _ (some c) mantissa marks signs digits
      (by simpa using precise)
    simpa using numeral
  | dot | point | marker | sign => cases number

end Spells

end Stage

end TurtleGraphics.Token
