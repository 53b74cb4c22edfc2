import TurtleGraphics.Program
import TurtleGraphics.Proofs.Grammar.Complete.Command
import TurtleGraphics.Proofs.Grammar.Rules
import TurtleGraphics.Proofs.Token.Partition

/-!
What the parser accepts: exactly the texts whose tokens are those of a script of the grammar in
which every expression is as long as it can be. There is one such script for a text at most, and the
program's tree is its syntax tree.
-/

namespace TurtleGraphics

open Phrase (Script)

namespace Program

/-- The tokens of a source, its final line end supplied and the end of input last. -/
def tokens (source : String) : List Token :=
  (Lexeme.ofSource keywords (complete source)).map (·.token)

structure Derives (source : String) (s : Script) : Prop where
  yield : s.tokens = tokens source
  longest : s.Longest

theorem Derives.read_eq {source : String} {s : Script} (h : Derives source s) :
    Script.read (tokens source).length (tokens source) = .matched s [] := by
  rw [← h.yield]
  exact s.complete h.longest (Nat.le_refl _)

theorem Derives.unique {source : String} {s s' : Script} (h : Derives source s)
    (h' : Derives source s') : s = s' := by
  have same := h.read_eq
  rw [h'.read_eq] at same
  cases same
  rfl

theorem derives_of_read {source : String} {s : Script} {rest : List Token}
    (h : Script.read (tokens source).length (tokens source) = .matched s rest) :
    Derives source s := by
  obtain ⟨longest, before, t, kind, split, same⟩ := Phrase.script_careful h (Nat.le_refl _)
  obtain ⟨others, whole, clear⟩ := Lexeme.tokens_ofSource keywords (complete source)
  have last : tokens source = others ++ [Token.theEnd] := whole
  refine ⟨?_, longest⟩
  rw [same, last]
  rw [last] at split
  rcases List.append_eq_append_iff.mp split with ⟨more, rfl, single⟩ | ⟨more, rfl, single⟩
  · cases more with
    | nil => simp
    | cons x more => simp at single
  · cases more with
    | nil => simp
    | cons x more =>
      cases single
      exact absurd kind (clear t (by simp))

theorem at?_of_tree {forest : Forest Node} {root : Nat} {t : Tree Node}
    (h : forest.tree root = .ok t) : ∃ p, at? forest root = .ok p ∧ p.tree = t := by
  unfold at?
  split
  · rename_i u same
    rw [h] at same
    cases same
    exact ⟨_, rfl, rfl⟩
  · rename_i e same
    rw [h] at same
    cases same

theorem finish_ok {s s' : Grammar.State} {h : Nat} {t : Tree Node}
    (built : Grammar.Built s s' [(h, t)]) : ∃ p s'', finish s' = .ok p s'' ∧ p.tree = t := by
  obtain ⟨p, found, tree⟩ := at?_of_tree built.grown.tree_eq
  refine ⟨p, { s' with stack := s.stack }, ?_, tree⟩
  rw [finish, Grammar.bind_of_ok (Grammar.pop_ok built), Grammar.get_bind, found]
  rfl

theorem read_ran {start : Grammar.State} {r : Phrase.Reading Script}
    (ran : Grammar.Ran (fun s b s' => b = true ∧ ∃ h, Grammar.Built start s' [(h, s.tree)])
      (fun b _ => b = false) r (Grammar.recognise .program start)) :
    (∃ s rest p s', r = .matched s rest ∧ read start = .ok p s' ∧ p.tree = s.tree) ∨
      ((∀ s rest, r ≠ .matched s rest) ∧ ∃ e s', read start = .error e s') := by
  generalize recognised : Grammar.recognise .program start = result at ran
  cases ran with
  | @matched s b t good =>
    obtain ⟨rfl, h, built⟩ := good
    obtain ⟨p, s', finished, tree⟩ := finish_ok built
    refine .inl ⟨s, _, p, s', rfl, ?_, tree⟩
    simp only [read, Grammar.expect, bind, EStateM.bind, recognised]
    exact finished
  | @passed b s good =>
    obtain rfl := good
    refine .inr ⟨fun _ _ same => (nomatch same), s.error .noCommand, s, ?_⟩
    simp only [read, Grammar.expect, bind, EStateM.bind, recognised]
    rfl
  | @failed e s =>
    refine .inr ⟨fun _ _ same => (nomatch same), e, s, ?_⟩
    simp only [read, Grammar.expect, bind, EStateM.bind, recognised]

/-- The parser comes to what the reader of a script comes to. -/
theorem parse_eq_read (source : String) :
    (∃ s rest p, Script.read (tokens source).length (tokens source) = .matched s rest ∧
      parse source = .ok p ∧ p.tree = s.tree) ∨
    ((∀ s rest, Script.read (tokens source).length (tokens source) ≠ .matched s rest) ∧
      ∃ e, parse source = .error e) := by
  have ran : Grammar.Ran _ _ (Script.read (tokens source).length (tokens source))
      (Grammar.recognise .program (.ofSource (complete source))) :=
    Grammar.program_ran _ (.ofSource (complete source))
  rcases read_ran ran with ⟨s, rest, p, s', matched, accepted, tree⟩ | ⟨unread, e, s', refused⟩
  · refine .inl ⟨s, rest, p, matched, ?_, tree⟩
    unfold parse
    rw [accepted]
  · refine .inr ⟨unread, e, ?_⟩
    unfold parse
    rw [refused]

theorem Derives.parsed {source : String} {s : Script} (h : Derives source s) :
    ∃ p, parse source = .ok p ∧ p.tree = s.tree := by
  rcases parse_eq_read source with ⟨s', rest, p, read, accepted, tree⟩ | ⟨unread, -⟩
  · rw [h.read_eq] at read
    cases read
    exact ⟨p, accepted, tree⟩
  · exact absurd h.read_eq (unread s [])

theorem derives_of_parse {source : String} {p : Program} (accepted : parse source = .ok p) :
    ∃ s, Derives source s ∧ p.tree = s.tree := by
  rcases parse_eq_read source with ⟨s, rest, q, read, same, tree⟩ | ⟨-, e, refused⟩
  · rw [accepted] at same
    cases same
    exact ⟨s, derives_of_read read, tree⟩
  · rw [accepted] at refused
    cases refused

/-- A text is accepted exactly if a script is derived from it; there is one such script at most, and
its syntax tree is the tree of the program. -/
theorem parse_accepts_derivable (source : String) :
    ((∃ p, parse source = .ok p) ↔ ∃ s, Derives source s) ∧
      (∀ s s', Derives source s → Derives source s' → s = s') ∧
      ∀ p s, parse source = .ok p → Derives source s → p.tree = s.tree := by
  refine ⟨?_, fun s s' h h' => h.unique h', ?_⟩
  · constructor
    · rintro ⟨p, accepted⟩
      obtain ⟨s, derived, -⟩ := derives_of_parse accepted
      exact ⟨s, derived⟩
    · rintro ⟨s, derived⟩
      obtain ⟨p, accepted, -⟩ := derived.parsed
      exact ⟨p, accepted⟩
  · intro p s accepted derived
    obtain ⟨q, same, tree⟩ := derived.parsed
    rw [accepted] at same
    cases same
    exact tree

theorem parse_accepts_derivable_signed_sum :
    ∃ p, parse "forward -x + 2 * y" = .ok p ∧
      p.tree = .node (.ofGroup .program)
        [.node (.ofGroup .block)
          [.node (.ofToken (Phrase.word "forward"))
            [.node (.ofToken (Phrase.mark "+"))
              [.node (.ofToken (Phrase.mark "-")) [Phrase.atom (Phrase.naming "x")],
                .node (.ofToken (Phrase.mark "*"))
                  [Phrase.atom ⟨.number, "2"⟩, Phrase.atom (Phrase.naming "y")]]]],
          .node (.ofGroup .list) []] := by
  -- the sign goes to the first factor alone
  let sum : Phrase.Expression :=
    .signed (some .minus) (.name "x") .nil
      (.cons .plus (.number "2") (.cons .times (.name "y") .nil) .nil)
  let s : Script := ⟨[], .move .forward sum ⟨"\n", []⟩, [], []⟩
  have derived : Derives "forward -x + 2 * y" s := by
    refine ⟨by decide +kernel, ?_⟩
    simp [s, sum, Script.Longest, Phrase.Command.Longest, Phrase.Expression.LongestBefore,
      Phrase.Addends.Longest, Phrase.Factor.Longest, Phrase.Factors.Longest,
      Phrase.LineEnd.tokens, Phrase.startsSigned, Phrase.endOfLine, Phrase.mark]
  obtain ⟨accepted, -, tree⟩ := parse_accepts_derivable "forward -x + 2 * y"
  obtain ⟨p, parsed⟩ := accepted.mpr ⟨s, derived⟩
  exact ⟨p, parsed, tree p s parsed derived⟩

end Program

end TurtleGraphics
