import TurtleGraphics.Program
import TurtleGraphics.Proofs.Grammar.Parse
import TurtleGraphics.Proofs.Grammar.Place
import TurtleGraphics.Proofs.Run.Access

/-!
A program is fixed by how its tree is written, on one line or on many. Two texts whose trees are
written alike have the same tree, and run alike.
-/

namespace TurtleGraphics.Program

open Phrase (Script AllLegible)

/-- All tokens of a script but its end have been read from the source. -/
theorem Derives.legible {source : String} {s : Script} (derived : Derives source s) :
    AllLegible (s.blank.map Phrase.endOfLine ++ (s.first.tokens ++
      (s.more.flatMap Phrase.Command.tokens ++ s.procedures.flatMap Phrase.Procedure.tokens))) := by
  obtain ⟨before, whole, others⟩ := Lexeme.tokens_ofSource keywords (complete source)
  have yield : tokens source = before ++ [Token.theEnd] := whole
  rw [← derived.yield, Script.tokens, ← List.append_assoc (s.more.flatMap _),
    ← List.append_assoc s.first.tokens, ← List.append_assoc (s.blank.map _)] at yield
  rw [List.append_cancel_right yield]
  intro t member
  have read : t ∈ (Lexeme.ofSource keywords (complete source)).map (·.token) := by
    rw [whole]
    exact List.mem_append_left _ member
  rcases Token.legible_of_mem_ofSource read with rfl | legible
  · exact absurd rfl (others _ member)
  · exact legible

theorem Derives.fits {source : String} {s : Script} (derived : Derives source s) :
    s.tree.Fits .program := by
  have legible := derived.legible
  rw [Phrase.allLegible_append, Phrase.allLegible_append, Phrase.allLegible_append] at legible
  obtain ⟨-, first, more, procedures⟩ := legible
  apply s.fits first
  · intro c member t token
    exact more t (List.mem_flatMap.mpr ⟨c, member, token⟩)
  · intro p member t token
    exact procedures t (List.mem_flatMap.mpr ⟨p, member, token⟩)

theorem fits_of_parse {source : String} {p : Program} (accepted : parse source = .ok p) :
    p.tree.Fits .program := by
  obtain ⟨s, derived, tree⟩ := derives_of_parse accepted
  rw [tree]
  exact derived.fits

/-- If two programs read from texts have the same outline, or the same description, then their trees
are equal and a run of either comes to the same. So does a run that reads its nodes off the forest
of either, whatever the forests look like, and no node is lacking in it. -/
theorem alike_of_same_text {source source' : String} {p q : Program}
    (accepted : parse source = .ok p) (accepted' : parse source' = .ok q)
    (same : p.outline = q.outline ∨ p.describe = q.describe) :
    p.tree = q.tree ∧
      (∀ (ω : Type) [Host ω] (limit : Nat) (m : Machine ω), p.run limit m = q.run limit m) ∧
      ∀ (ω : Type) [Host ω] (limit : Nat) (w : Walk ω), ∃ seen,
        (w.run p.forest limit p.root).visible = .ok seen ∧
          (w.run q.forest limit q.root).visible = .ok seen := by
  have fits := fits_of_parse accepted
  have fits' := fits_of_parse accepted'
  have texts : p.tree.map Node.display = q.tree.map Node.display := by
    rcases same with outline | describe
    · exact Tree.outline_injective fits.plain fits'.plain outline
    · exact Tree.describe_injective fits.plain fits'.plain describe
  have tree : p.tree = q.tree := by
    rw [← fits.meant, texts, fits'.meant]
  refine ⟨tree, ?_, ?_⟩
  · intro ω _ limit m
    rw [run, run, tree]
  · intro ω _ limit w
    have walks (r : Program) : (w.run r.forest limit r.root).visible =
        .ok (w.memory.run limit r.tree).visible :=
      (w.run_mirrors r.tree_eq limit).visible
    exact ⟨_, walks p, tree ▸ walks q⟩

/-- Two layouts of a text in which a name reads like a node that groups others. -/
theorem alike_of_same_text_layout : ∃ p q,
    parse "set block 1\nforward (block)" = .ok p ∧
      parse "\n// a name\nset block 1\n\nforward block\n" = .ok q ∧
        p.outline = q.outline ∧ p.tree = q.tree ∧
          (∀ (ω : Type) [Host ω] (limit : Nat) (m : Machine ω), p.run limit m = q.run limit m) ∧
          ∀ (ω : Type) [Host ω] (limit : Nat) (w : Walk ω), ∃ seen,
            (w.run p.forest limit p.root).visible = .ok seen ∧
              (w.run q.forest limit q.root).visible = .ok seen := by
  let one : Phrase.Expression := .signed none (.number "1") .nil .nil
  let name : Phrase.Expression := .signed none (.name "block") .nil .nil
  let inside : Phrase.Expression := .signed none (.parens name) .nil .nil
  let line : Phrase.LineEnd := ⟨"\n", []⟩
  let s : Script := ⟨[], .assign "block" one line, [.move .forward inside line], []⟩
  let s' : Script :=
    ⟨["\n", "\n"], .assign "block" one ⟨"\n", ["\n"]⟩, [.move .forward name line], []⟩
  have derived : Derives "set block 1\nforward (block)" s := by
    have more : ∀ c ∈ s.more, c.Longest :=
      List.forall_mem_singleton.mpr (inside.longestBefore rfl)
    exact ⟨by decide +kernel, one.longestBefore rfl, more, List.forall_mem_nil _⟩
  have derived' : Derives "\n// a name\nset block 1\n\nforward block\n" s' := by
    have more : ∀ c ∈ s'.more, c.Longest :=
      List.forall_mem_singleton.mpr (name.longestBefore rfl)
    exact ⟨by decide +kernel, one.longestBefore rfl, more, List.forall_mem_nil _⟩
  obtain ⟨p, accepted, tree⟩ := derived.parsed
  obtain ⟨q, accepted', tree'⟩ := derived'.parsed
  have outlines : p.outline = q.outline := by
    rw [outline, outline, tree, tree']
    rfl
  exact ⟨p, q, accepted, accepted', outlines,
    alike_of_same_text accepted accepted' (.inl outlines)⟩

end TurtleGraphics.Program
