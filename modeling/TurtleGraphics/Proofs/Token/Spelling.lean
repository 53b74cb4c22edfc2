import TurtleGraphics.Proofs.Token.Partition
import TurtleGraphics.Proofs.Tree.Written

/-!
A token can be read off its own text again, however it was come by: what an open draft has read
leads from no draft to that draft. So tokens can be written down with a blank after each, and a text
fixes the category of its token.
-/

namespace TurtleGraphics.Token

open Text

namespace Draft

def run (keywords : List String) (d : Draft) : List Char → List Token × Draft
  | [] => ([], d)
  | c :: cs =>
    ((d.next keywords c).1 ++ ((d.next keywords c).2.run keywords cs).1,
      ((d.next keywords c).2.run keywords cs).2)

variable {keywords : List String} {d : Draft}

theorem run_append (cs ds : List Char) :
    d.run keywords (cs ++ ds) = ((d.run keywords cs).1 ++ ((d.run keywords cs).2.run keywords ds).1,
      ((d.run keywords cs).2.run keywords ds).2) := by
  induction cs generalizing d with
  | nil => rfl
  | cons c cs ih => simp only [List.cons_append, run, ih, List.append_assoc]

theorem tokens_append (cs ds : List Char) :
    d.tokens keywords (cs ++ ds) =
      (d.run keywords cs).1 ++ (d.run keywords cs).2.tokens keywords ds := by
  induction cs generalizing d with
  | nil => rfl
  | cons c cs ih => simp only [List.cons_append, tokens, run, ih, List.append_assoc]

end Draft

open Tree.Description (separates IsPlain)

/-- The characters that neither a word nor a literal can hold. -/
def separators : List Char :=
  '(' :: ')' :: ',' :: blanks

theorem separates_iff {c : Char} : separates c = true ↔ c ∈ separators := by
  simp [separates, separators, isBlank, or_assoc]

theorem unseparated_of_joinsWord {c : Char} (joins : joinsWord c = true) :
    separates c = false := by
  have each : separators.all (fun c => !joinsWord c) = true := by decide +kernel
  rw [Bool.eq_false_iff]
  intro separated
  have other := List.all_eq_true.mp each c (separates_iff.mp separated)
  rw [joins] at other
  cases other

theorem Stage.next_separates {c : Char} (separated : separates c = true) (s : Stage) :
    s.next c = .stop := by
  have each : separators.all (fun c => decide (s.next c = .stop)) = true := by
    cases s <;> decide +kernel
  exact of_decide_eq_true (List.all_eq_true.mp each c (separates_iff.mp separated))

theorem Stage.unseparated {s : Stage} {c : Char} (goesOn : s.next c ≠ .stop) :
    separates c = false := by
  rw [Bool.eq_false_iff]
  intro separated
  exact goesOn (s.next_separates separated)

theorem joinsWord_of_startsWord {c : Char} (h : startsWord c = true) : joinsWord c = true := by
  simp only [startsWord, joinsWord, Bool.or_eq_true] at h ⊢
  rcases h with letter | underscore
  · exact .inl (.inl letter)
  · exact .inr underscore

inductive Alone (keywords : List String) (t : Token) : Prop
  | complete (read : Draft.gap.run keywords t.text.toList = ([t], .gap))
  | unclosed {d : Draft} (read : Draft.gap.run keywords t.text.toList = ([], d))
    (close : d.close keywords = [t])

structure Legible (keywords : List String) (t : Token) : Prop where
  alone : Alone keywords t
  plain : t.kind ≠ .symbol → t.kind ≠ .endOfLine → IsPlain t.text

namespace Draft

variable {keywords : List String} {d : Draft}

inductive Made (keywords : List String) : Draft → Prop
  | gap : Made keywords .gap
  | slash : Made keywords .slash
  | comment : Made keywords .comment
  | word {read : List Char} (nonempty : read ≠ []) (plain : ∀ c ∈ read, separates c = false)
    (led : Draft.gap.run keywords read.reverse = ([], .word read)) : Made keywords (.word read)
  | literal {stage : Stage} {read : List Char} (nonempty : read ≠ [])
    (plain : ∀ c ∈ read, separates c = false)
    (led : Draft.gap.run keywords read.reverse = ([], .literal stage read)) :
    Made keywords (.literal stage read)

theorem toList_text (read : List Char) : (text read).toList = read.reverse :=
  String.toList_ofList

theorem isPlain_text {read : List Char} (nonempty : read ≠ [])
    (plain : ∀ c ∈ read, separates c = false) : IsPlain (text read) where
  nonempty := by
    intro empty
    have nothing := toList_text read
    rw [empty] at nothing
    exact nonempty (List.reverse_eq_nil_iff.mp nothing.symm)
  unseparated := by
    intro c member
    rw [toList_text, List.mem_reverse] at member
    exact plain c member

theorem Made.close (made : Made keywords d) : ∀ t ∈ d.close keywords, Legible keywords t := by
  intro t member
  cases made with
  | gap | comment => cases member
  | slash =>
    obtain rfl := List.mem_singleton.mp member
    exact ⟨.unclosed rfl rfl, fun other => absurd rfl other⟩
  | @word read nonempty plain led =>
    obtain rfl := List.mem_singleton.mp member
    rw [← toList_text] at led
    exact ⟨.unclosed led rfl, fun _ _ => isPlain_text nonempty plain⟩
  | @literal stage read nonempty plain led =>
    obtain rfl := List.mem_singleton.mp member
    rw [← toList_text] at led
    exact ⟨.unclosed led rfl, fun _ _ => isPlain_text nonempty plain⟩

theorem run_singleton (c : Char) : d.run keywords [c] = d.next keywords c := by
  simp [run]

theorem made_start (c : Char) :
    (∀ t ∈ (start c).1, Legible keywords t) ∧ Made keywords (start c).2 := by
  have led : gap.run keywords [c] = start c := run_singleton c
  unfold start at led ⊢
  simp only [beq_iff_eq] at led ⊢
  split
  · rename_i line
    subst line
    refine ⟨?_, .gap⟩
    intro t member
    obtain rfl := List.mem_singleton.mp member
    exact ⟨.complete led, fun _ other => absurd rfl other⟩
  rename_i line
  rw [if_neg line] at led
  split
  · exact ⟨by simp, .gap⟩
  rename_i blank
  rw [if_neg blank] at led
  split
  · rename_i starts
    have plain := unseparated_of_joinsWord (joinsWord_of_startsWord starts)
    rw [if_pos starts] at led
    exact ⟨by simp, .word (by simp) (by simpa using plain) led⟩
  rename_i starts
  rw [if_neg starts] at led
  split
  · rename_i digit
    have goesOn : Stage.whole.next c ≠ .stop := by
      unfold Stage.next
      rw [if_pos digit]
      simp
    rw [if_pos digit] at led
    exact ⟨by simp, .literal (by simp) (by simpa using Stage.unseparated goesOn) led⟩
  rename_i digit
  rw [if_neg digit] at led
  split
  · rename_i dot
    subst dot
    have plain : separates '.' = false := by decide
    exact ⟨by simp, .literal (by simp) (by simpa using plain) led⟩
  rename_i dot
  rw [if_neg dot] at led
  split
  · exact ⟨by simp, .slash⟩
  · rename_i slash
    rw [if_neg slash] at led
    refine ⟨?_, .gap⟩
    intro t member
    obtain rfl := List.mem_singleton.mp member
    refine ⟨.complete ?_, fun other => absurd rfl other⟩
    simpa using led

theorem Made.restart (made : Made keywords d) (c : Char) :
    (∀ t ∈ (d.restart keywords c).1, Legible keywords t) ∧
      Made keywords (d.restart keywords c).2 := by
  obtain ⟨begun, further⟩ : (∀ t ∈ (start c).1, Legible keywords t) ∧ Made keywords (start c).2 :=
    made_start c
  refine ⟨?_, further⟩
  intro t member
  rcases List.mem_append.mp member with closed | started
  · exact made.close t closed
  · exact begun t started

theorem run_snoc {read : List Char} {ts : List Token} {later : Draft} {c : Char}
    (led : gap.run keywords read.reverse = ([], d)) (step : d.next keywords c = (ts, later)) :
    gap.run keywords (c :: read).reverse = (ts, later) := by
  rw [List.reverse_cons, run_append, led, run_singleton, step]
  rfl

theorem Made.next (made : Made keywords d) (c : Char) :
    (∀ t ∈ (d.next keywords c).1, Legible keywords t) ∧ Made keywords (d.next keywords c).2 := by
  cases made with
  | gap => exact made_start c
  | slash =>
    simp only [Draft.next]
    split
    · exact ⟨by simp, .comment⟩
    · exact Made.slash.restart c
  | comment =>
    simp only [Draft.next]
    split
    · refine ⟨?_, .gap⟩
      intro t member
      obtain rfl := List.mem_singleton.mp member
      exact ⟨.complete rfl, fun _ other => absurd rfl other⟩
    · exact ⟨by simp, .comment⟩
  | @word read nonempty plain led =>
    simp only [Draft.next]
    split
    · rename_i joins
      have step : (Draft.word read).next keywords c = ([], .word (c :: read)) := by
        simp only [Draft.next, joins, if_true]
      have longer : ∀ x ∈ c :: read, separates x = false :=
        List.forall_mem_cons.mpr ⟨unseparated_of_joinsWord joins, plain⟩
      exact ⟨by simp, .word (by simp) longer (run_snoc led step)⟩
    · exact (Made.word nonempty plain led).restart c
  | @literal stage read nonempty plain led =>
    simp only [Draft.next]
    split
    · rename_i further more
      have goesOn : stage.next c ≠ .stop := by simp [more]
      have step : (Draft.literal stage read).next keywords c =
          ([], .literal further (c :: read)) := by
        simp only [Draft.next, more]
      have longer : ∀ x ∈ c :: read, separates x = false :=
        List.forall_mem_cons.mpr ⟨Stage.unseparated goesOn, plain⟩
      exact ⟨by simp, .literal (by simp) longer (run_snoc led step)⟩
    · rename_i kind last
      have goesOn : stage.next c ≠ .stop := by simp [last]
      have step : (Draft.literal stage read).next keywords c =
          ([⟨kind, text (c :: read)⟩], .gap) := by
        simp only [Draft.next, last]
      have longer : ∀ x ∈ c :: read, separates x = false :=
        List.forall_mem_cons.mpr ⟨Stage.unseparated goesOn, plain⟩
      have whole := run_snoc led step
      rw [← toList_text] at whole
      refine ⟨?_, .gap⟩
      intro t member
      obtain rfl := List.mem_singleton.mp member
      exact ⟨.complete whole, fun _ _ => isPlain_text (by simp) longer⟩
    · exact (Made.literal nonempty plain led).restart c

theorem Made.legible (made : Made keywords d) (cs : List Char) :
    ∀ t ∈ d.tokens keywords cs, t = theEnd ∨ Legible keywords t := by
  induction cs generalizing d with
  | nil =>
    intro t member
    rcases List.mem_append.mp member with closed | last
    · exact .inr (made.close t closed)
    · exact .inl (List.mem_singleton.mp last)
  | cons c cs ih =>
    obtain ⟨now, later⟩ := made.next c
    intro t member
    rcases List.mem_append.mp member with closed | further
    · exact .inr (now t closed)
    · exact ih later t further

/-- A blank closes whatever is open and is read again with nothing open. -/
theorem next_isBlank {t : Token} {c : Char} (blank : isBlank c = true)
    (close : d.close keywords = [t]) : d.next keywords c = (t :: (start c).1, (start c).2) := by
  have separated : separates c = true := by simp [separates, blank]
  have stops : ∀ stage : Stage, stage.next c = .stop := Stage.next_separates separated
  cases d with
  | gap | comment => cases close
  | slash =>
    have other : c ≠ '/' := by
      rintro rfl
      exact absurd blank (by decide)
    simp [Draft.next, other, Draft.restart, close]
  | word read =>
    have joins : joinsWord c = false := by
      rw [Bool.eq_false_iff]
      intro joins
      rw [unseparated_of_joinsWord joins] at separated
      cases separated
    simp [Draft.next, joins, Draft.restart, close]
  | literal stage read => simp [Draft.next, stops, Draft.restart, close]

end Draft

variable {keywords : List String}

/-- A blank after the text ends the token. -/
theorem Alone.run_isBlank {t : Token} (alone : Alone keywords t) {c : Char}
    (blank : isBlank c = true) : Draft.gap.run keywords (t.text.toList ++ [c]) =
      (t :: (Draft.start c).1, (Draft.start c).2) := by
  rw [Draft.run_append]
  cases alone with
  | complete read =>
    rw [read, Draft.run_singleton]
    rfl
  | unclosed read close =>
    rw [read, Draft.run_singleton, Draft.next_isBlank blank close, List.nil_append]

theorem Alone.run_blank {t : Token} (alone : Alone keywords t) :
    Draft.gap.run keywords (t.text.toList ++ [' ']) = ([t], .gap) := by
  have begun : Draft.start ' ' = ([], .gap) := by decide +kernel
  rw [alone.run_isBlank (by decide), begun]

/-- The texts of the tokens, each with a blank after it. -/
def spelled (ts : List Token) : List Char :=
  ts.flatMap fun t => t.text.toList ++ [' ']

/-- Tokens that are written down are read again. -/
theorem tokens_spelled {ts : List Token} (alone : ∀ t ∈ ts, Alone keywords t) (cs : List Char) :
    Draft.gap.tokens keywords (spelled ts ++ cs) = ts ++ Draft.gap.tokens keywords cs := by
  induction ts with
  | nil => rfl
  | cons t ts ih =>
    have first := (alone t (by simp)).run_blank
    have others := ih fun u member => alone u (by simp [member])
    rw [spelled, List.flatMap_cons, List.append_assoc, Draft.tokens_append, first]
    simpa [spelled] using others

def ofText (keywords : List String) (text : String) : Token :=
  (Draft.gap.tokens keywords (text.toList ++ [' '])).headD theEnd

theorem Alone.ofText_text {t : Token} (alone : Alone keywords t) : ofText keywords t.text = t := by
  have read : Draft.gap.tokens keywords (t.text.toList ++ [' ']) = [t] ++ [theEnd] := by
    rw [← List.append_nil (t.text.toList ++ [' ']), Draft.tokens_append, alone.run_blank]
    rfl
  rw [ofText, read]
  rfl

theorem legible_of_mem_ofSource {source : String} {t : Token}
    (member : t ∈ (Lexeme.ofSource keywords source).map (·.token)) :
    t = theEnd ∨ Legible keywords t := by
  rw [Lexeme.ofSource, Lexeme.tokens_readFrom] at member
  exact Draft.Made.gap.legible _ t member

end TurtleGraphics.Token
