import TurtleGraphics.Proofs.Grammar.Rendering
import TurtleGraphics.Proofs.Tree.Acceptance

/-!
Describing a tree and reading the description undo each other. A description that is accepted has a
normal form, the description of the tree that is read from it.
-/

namespace TurtleGraphics.Tree

open Description Forest

variable {text : String} {t u : Tree String} {r : Nat} {f : Forest String}

/-- What is read from the description is this tree, in a forest that holds nothing else. -/
def ReadBack (t : Tree String) : Prop :=
  ∃ r f, ofDescription t.describe = .ok (r, f) ∧ f.Holds r t

theorem AllPlain.readBack (plain : t.AllPlain) : t.ReadBack :=
  ofDescription_of_tree (tree_describe plain)

theorem AllPlain.beq_iff (plain : t.AllPlain) (plain' : u.AllPlain) :
    (t == u) = true ↔ t.describe = u.describe := by
  refine (beq_iff_eq t u).trans ⟨?_, describe_injective plain plain'⟩
  rintro rfl
  rfl

/-- The words of a tree that is read were cut out of the text. -/
theorem allPlain_of_tree (came : Description.tree text = .ok t) : t.AllPlain := by
  intro w member
  rw [(tree_eq_ok_iff.mp came).preorder] at member
  obtain ⟨m, mark, word⟩ := List.mem_filterMap.mp member
  cases m with
  | opening | closing => cases word
  | word v =>
    cases word
    exact (words_iff.mpr rfl).plain mark

theorem tree_of_ofDescription (done : ofDescription text = .ok (r, f)) :
    ∃ t, Description.tree text = .ok t ∧ f.Holds r t := by
  cases came : Description.tree text with
  | ok t =>
    obtain ⟨s, g, planted, holds⟩ := ofDescription_of_tree came
    rw [done] at planted
    cases planted
    exact ⟨t, rfl, holds⟩
  | error e =>
    rw [ofDescription_of_error came] at done
    cases done

/-- What is read from the description of the tree that was read is what was read before. -/
theorem ofDescription_describe (done : ofDescription text = .ok (r, f)) :
    ∃ t, f.Holds r t ∧ t.AllPlain ∧ ofDescription t.describe = .ok (r, f) := by
  obtain ⟨t, came, holds⟩ := tree_of_ofDescription done
  have plain : t.AllPlain := allPlain_of_tree came
  refine ⟨t, holds, plain, ?_⟩
  rw [← done, ofDescription, ofDescription, tree_describe plain, came]

/-- Below every node of a forest that edits have led to there is a tree. If its values are words it
is read back from its description, and the description tells it from every other such tree. A tree
that is read from a text has a description that reads as that tree; and the texts of a program that
is read are words. -/
theorem describe_inverse :
    (∀ (es : List (Edit String)) (h : Nat), h < (afterAll empty es).size →
      ∃ t, (afterAll empty es).tree h = .ok t ∧ (t.AllPlain → t.ReadBack)) ∧
    (∀ (es es' : List (Edit String)) (h k : Nat) (t u : Tree String),
      (afterAll empty es).tree h = .ok t → (afterAll empty es').tree k = .ok u →
        t.AllPlain → u.AllPlain → ((t == u) = true ↔ t.describe = u.describe)) ∧
    (∀ (text : String) (r : Nat) (f : Forest String), ofDescription text = .ok (r, f) →
      ∃ t, f.Holds r t ∧ t.AllPlain ∧ ofDescription t.describe = .ok (r, f)) ∧
    (∀ (source : String) (p : Program), Program.parse source = .ok p →
      (p.tree.map Node.display).AllPlain) := by
  refine ⟨?_, ?_, ?_, ?_⟩
  · intro es h inside
    obtain ⟨t, found⟩ := (sound_empty.afterAll es).exists_tree inside
    exact ⟨t, found, AllPlain.readBack⟩
  · intro es es' h k t u _ _ plain plain'
    exact plain.beq_iff plain'
  · intro text r f done
    exact ofDescription_describe done
  · intro source p accepted
    exact (Program.fits_of_parse accepted).plain

/-- A sum put together node by node. -/
theorem describe_inverse_sum : ∃ t : Tree String,
    (afterAll empty [.leaf "x", .node "neg" [0], .leaf "y", .node "sum" [1, 2]]).tree 3 = .ok t ∧
      t.AllPlain ∧ t.describe = "sum(neg(x) y)" ∧ t.ReadBack := by
  obtain ⟨t, found, back⟩ := describe_inverse.1
    [.leaf "x", .node "neg" [0], .leaf "y", .node "sum" [1, 2]] 3 (by decide)
  have sum : t = .node "sum" [.node "neg" [.node "x" []], .node "y" []] := by
    cases found
    rfl
  have plain : t.AllPlain := by
    subst sum
    unfold AllPlain
    decide
  exact ⟨t, found, plain, by rw [sum]; rfl, back plain⟩

/-- Commas, wide gaps and empty parentheses are not part of the normal form. -/
example : (Description.tree " +(a,*( b c ) d())").map describe = .ok "+(a *(b c) d)" := by
  decide +kernel

end TurtleGraphics.Tree
