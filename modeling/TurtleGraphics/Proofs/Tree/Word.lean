import TurtleGraphics.Tree.Description

/-!
The words of a description. A text is cut in one way only into longest words, parentheses, and gaps
of blanks and commas.
-/

namespace TurtleGraphics.Tree

namespace Description

structure IsPlain (text : String) : Prop where
  nonempty : text ≠ ""
  unseparated : ∀ c ∈ text.toList, separates c = false

theorem isPlain_iff {text : String} :
    IsPlain text ↔ text ≠ "" ∧ text.toList.all (fun c => !separates c) = true := by
  constructor
  · intro plain
    refine ⟨plain.nonempty, List.all_eq_true.mpr ?_⟩
    intro c member
    rw [plain.unseparated c member]
    rfl
  · rintro ⟨nonempty, unseparated⟩
    exact ⟨nonempty, fun c member => by simpa using List.all_eq_true.mp unseparated c member⟩

instance (text : String) : Decidable (IsPlain text) :=
  decidable_of_iff _ isPlain_iff.symm

/-- No word goes on into these characters. -/
def Closes (rest : List Char) : Prop :=
  ∀ c ∈ rest.head?, separates c = true

theorem closes_nil : Closes [] := by
  simp [Closes]

theorem closes_cons {c : Char} {rest : List Char} (separated : separates c = true) :
    Closes (c :: rest) := by
  simpa [Closes] using separated

theorem marksFrom_append {cs : List Char} (plain : ∀ c ∈ cs, separates c = false)
    (read rest : List Char) :
    marksFrom read (cs ++ rest) = marksFrom (cs.reverse ++ read) rest := by
  induction cs generalizing read with
  | nil => rfl
  | cons c cs ih =>
    have first := plain c (by simp)
    have others := ih (fun d member => plain d (by simp [member])) (c :: read)
    simp [marksFrom, first, others]

theorem marksFrom_closes {read rest : List Char} (closes : Closes rest) :
    marksFrom read rest = finished read ++ marksFrom [] rest := by
  cases rest with
  | nil => simp [marksFrom, finished]
  | cons c rest =>
    have separated : separates c = true := closes c (by simp)
    simp [marksFrom, separated, finished]

theorem marksFrom_word {w : String} (plain : IsPlain w) {rest : List Char} (closes : Closes rest) :
    marksFrom [] (w.toList ++ rest) = .word w :: marksFrom [] rest := by
  have whole : finished w.toList.reverse = [.word w] := by
    have nonempty : w.toList.reverse ≠ [] := by simpa using plain.nonempty
    obtain ⟨c, cs, same⟩ := List.exists_cons_of_ne_nil nonempty
    rw [same, finished, ← same, List.reverse_reverse, String.ofList_toList]
  rw [marksFrom_append plain.unseparated, List.append_nil, marksFrom_closes closes, whole]
  rfl

theorem marksFrom_opening (rest : List Char) :
    marksFrom [] ('(' :: rest) = .opening :: marksFrom [] rest := by
  rfl

theorem marksFrom_closing (rest : List Char) :
    marksFrom [] (')' :: rest) = .closing :: marksFrom [] rest := by
  rfl

theorem marksFrom_gap {c : Char} (gap : c = ',' ∨ Text.isBlank c = true) (rest : List Char) :
    marksFrom [] (c :: rest) = marksFrom [] rest := by
  have separated : separates c = true := by
    rcases gap with rfl | blank
    · rfl
    · simp [separates, blank]
  have opening : c ≠ '(' := by
    rintro rfl
    exact absurd gap (by decide)
  have closing : c ≠ ')' := by
    rintro rfl
    exact absurd gap (by decide)
  simp [marksFrom, separated, brackets, opening, closing, finished]

inductive Words : List Char → List Mark → Prop
  | nil : Words [] []
  | gap {c : Char} {cs : List Char} {ms : List Mark} (gap : c = ',' ∨ Text.isBlank c = true)
    (rest : Words cs ms) : Words (c :: cs) ms
  | opening {cs : List Char} {ms : List Mark} (rest : Words cs ms) :
    Words ('(' :: cs) (.opening :: ms)
  | closing {cs : List Char} {ms : List Mark} (rest : Words cs ms) :
    Words (')' :: cs) (.closing :: ms)
  | word {w : String} {cs : List Char} {ms : List Mark} (plain : IsPlain w) (closes : Closes cs)
    (rest : Words cs ms) : Words (w.toList ++ cs) (.word w :: ms)

theorem Words.separator {c : Char} {cs : List Char} {ms : List Mark}
    (separated : separates c = true) (rest : Words cs ms) : Words (c :: cs) (brackets c ++ ms) := by
  by_cases opening : c = '('
  · subst opening
    exact .opening rest
  by_cases closing : c = ')'
  · subst closing
    exact .closing rest
  have gap : c = ',' ∨ Text.isBlank c = true := by
    simpa [separates, opening, closing] using separated
  simpa [brackets, opening, closing] using Words.gap gap rest

theorem words_finished {read cs : List Char} {ms : List Mark}
    (plain : ∀ c ∈ read, separates c = false) (closes : Closes cs) (rest : Words cs ms) :
    Words (read.reverse ++ cs) (finished read ++ ms) := by
  cases read with
  | nil => exact rest
  | cons c read =>
    have word : IsPlain (String.ofList (c :: read).reverse) := by
      constructor
      · simp
      · intro d member
        rw [String.toList_ofList, List.mem_reverse] at member
        exact plain d member
    simpa [finished] using Words.word word closes rest

theorem words_marksFrom {read : List Char} (plain : ∀ c ∈ read, separates c = false)
    (cs : List Char) : Words (read.reverse ++ cs) (marksFrom read cs) := by
  induction cs generalizing read with
  | nil =>
    rw [marksFrom, ← List.append_nil (finished read)]
    exact words_finished plain closes_nil .nil
  | cons c cs ih =>
    rw [marksFrom]
    split
    · rename_i separated
      have others : Words ([].reverse ++ cs) (marksFrom [] cs) := ih (List.forall_mem_nil _)
      rw [List.append_assoc]
      exact words_finished plain (closes_cons separated) (others.separator separated)
    · rename_i joined
      have more : Words ((c :: read).reverse ++ cs) (marksFrom (c :: read) cs) := by
        apply ih
        intro d member
        rcases List.mem_cons.mp member with rfl | earlier
        · simpa using joined
        · exact plain d earlier
      simpa using more

/-- There is one way to cut a text. -/
theorem Words.eq_marksFrom {cs : List Char} {ms : List Mark} (words : Words cs ms) :
    ms = marksFrom [] cs := by
  induction words with
  | nil => rfl
  | gap gap _ ih => rw [marksFrom_gap gap, ih]
  | opening _ ih => rw [marksFrom_opening, ih]
  | closing _ ih => rw [marksFrom_closing, ih]
  | word plain closes _ ih => rw [marksFrom_word plain closes, ih]

theorem words_iff {text : String} {ms : List Mark} : Words text.toList ms ↔ ms = marks text := by
  constructor
  · exact Words.eq_marksFrom
  · rintro rfl
    exact words_marksFrom (List.forall_mem_nil _) text.toList

/-- What is cut out as a word is a plain one. -/
theorem Words.plain {cs : List Char} {ms : List Mark} (words : Words cs ms) {w : String}
    (member : .word w ∈ ms) : IsPlain w := by
  induction words with
  | nil => cases member
  | gap _ _ ih => exact ih member
  | opening _ ih | closing _ ih =>
    rcases List.mem_cons.mp member with same | later
    · cases same
    · exact ih later
  | word plain _ _ ih =>
    rcases List.mem_cons.mp member with same | later
    · cases same
      exact plain
    · exact ih later

end Description

end TurtleGraphics.Tree
