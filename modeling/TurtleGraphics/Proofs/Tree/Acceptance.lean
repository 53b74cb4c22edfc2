import TurtleGraphics.Proofs.Tree.Descent
import TurtleGraphics.Proofs.Tree.Word

/-!
What texts describe a tree. A text is accepted just if its words are derived, and it is refused for
no other reason: nodes that have been read can always be put together.
-/

namespace TurtleGraphics.Tree

namespace Description

variable {text : String} {t : Tree String} {e : Error}

theorem read_ne_refused (os : List Open) (ms : List Mark) (err : Forest.Error) :
    read os ms ≠ .error (.refused err) := by
  fun_induction read os ms with
  | case1 | case2 | case3 | case4 | case5 | case8 => simp
  | case6 _ _ _ _ ih | case7 _ _ _ ih | case9 _ _ _ _ _ ih => exact ih

theorem tree_ne_refused (text : String) (err : Forest.Error) :
    tree text ≠ .error (.refused err) := by
  intro refused
  rcases error_of_bind refused with failed | ⟨⟨t, rest⟩, -, failed⟩
  · exact read_ne_refused [] (marks text) err failed
  · cases rest <;> cases failed

/-- A tree that has been read is planted whole. -/
theorem ofDescription_of_tree (came : tree text = .ok t) :
    ∃ r f, Forest.ofDescription text = .ok (r, f) ∧ f.Holds r t := by
  obtain ⟨r, f, planted, holds⟩ := Forest.plant_eq_ok t
  refine ⟨r, f, ?_, holds⟩
  rw [Forest.ofDescription, came]
  simp only [bind, Except.bind, planted]
  rfl

theorem ofDescription_of_error (failed : tree text = .error e) :
    Forest.ofDescription text = .error e := by
  rw [Forest.ofDescription, failed]
  rfl

/-- What may come of the words of a description: the one tree that is derived from them, with a node
for each word; or an error, which is about the description and not about putting nodes together. -/
inductive Outcome (ws : List Mark) : Except Error (Nat × Forest String) → Prop
  | accepted {t : Tree String} {r : Nat} {f : Forest String} (derived : Derives ws t)
    (unique : ∀ u, Derives ws u → u = t) (words : t.preorder = ws.filterMap Mark.word?)
    (holds : f.Holds r t) : Outcome ws (.ok (r, f))
  | rejected {e : Error} (underived : ∀ t, ¬ Derives ws t) (own : ∀ err, e ≠ .refused err) :
    Outcome ws (.error e)

/-- Every text is cut into words in one way. Reading them by descent ends, and the words alone
decide what it comes to. -/
theorem ofDescription_outcome (text : String) :
    ∃ ws, (∀ vs, Words text.toList vs ↔ vs = ws) ∧
      (∀ steps, 2 * ws.length < steps → descent steps ws = some (Forest.ofDescription text)) ∧
        Outcome ws (Forest.ofDescription text) := by
  refine ⟨marks text, fun vs => words_iff, fun steps enough => descent_eq text enough, ?_⟩
  cases came : tree text with
  | ok t =>
    obtain ⟨r, f, done, holds⟩ := ofDescription_of_tree came
    have derived := tree_eq_ok_iff.mp came
    rw [done]
    exact .accepted derived (fun u other => other.unique derived) derived.preorder holds
  | error e =>
    rw [ofDescription_of_error came]
    refine .rejected ?_ ?_
    · intro t derived
      rw [tree_eq_ok_iff.mpr derived] at came
      cases came
    · rintro err rfl
      exact tree_ne_refused text err came

end Description

end TurtleGraphics.Tree
