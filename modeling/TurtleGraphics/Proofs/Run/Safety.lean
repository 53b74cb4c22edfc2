import TurtleGraphics.Program
import TurtleGraphics.Proofs.Grammar.Parse
import TurtleGraphics.Proofs.Grammar.Shape
import TurtleGraphics.Turtle.Sketch

/-!
A run of a program that was read from a text fails with ordinary errors only. The invariant is that
every tree still to be visited, and every procedure noted, has the shape it should have.
-/

namespace TurtleGraphics

open Phrase (Script)
open TurtleGraphics.Tree (IsCommand IsProgram)

structure Machine.Shaped {ω : Type} (m : Machine ω) : Prop where
  tasks : ∀ t ∈ m.tasks, t.Shaped
  procedures : Machine.Sorted m.procedures

inductive Progress.Sound {ω : Type} : Progress ω → Prop
  | going {m : Machine ω} (shaped : m.Shaped) : Sound (.going m)
  | ended {o : Outcome} {m : Machine ω} (ordinary : ∀ e, o = .failed e → e.Ordinary) :
    Sound (.ended o m)

namespace Machine

variable {ω : Type} {m : Machine ω}

theorem Shaped.store (h : m.Shaped) (name : String) (x : Float) : (m.store name x).Shaped := by
  unfold Machine.store
  split
  · exact ⟨h.tasks, h.procedures⟩
  · split
    · exact ⟨h.tasks, h.procedures⟩
    · exact ⟨h.tasks, h.procedures⟩

theorem Shaped.todo (h : m.Shaped) {tasks : List Task} (shapes : ∀ t ∈ tasks, t.Shaped) :
    (m.todo tasks).Shaped := by
  refine ⟨?_, h.procedures⟩
  intro t member
  rcases List.mem_append.mp member with new | old
  · exact shapes t new
  · exact h.tasks t old

variable [Host ω]

theorem settle_sound (h : m.Shaped) : m.settle.Sound := by
  unfold settle
  split
  · exact .going ⟨h.tasks, h.procedures⟩
  · exact .ended fun e same => nomatch same
  · exact .ended fun e same => nomatch same

theorem carryOut_sound (h : m.Shaped) {d : Deed} (shape : d.Shaped) : (m.carryOut d).Sound := by
  cases d with
  | order o =>
    have told : (m.perform (.order o)).Shaped := ⟨h.tasks, h.procedures⟩
    exact settle_sound told
  | store name x =>
    have stored := h.store name x
    exact .going ⟨stored.tasks, stored.procedures⟩
  | push tasks => exact .going (h.todo shape)
  | define procedures block =>
    have noted : ({ m with procedures } : Machine ω).Shaped := ⟨h.tasks, shape.1⟩
    exact .going (noted.todo (by simpa [Task.Shaped] using .inr shape.2))
  | call frame body =>
    have pushed : (m.todo [.visit body, .leave]).Shaped :=
      h.todo (by simpa [Task.Shaped] using .inr shape)
    exact .going ⟨pushed.tasks, pushed.procedures⟩

theorem attempt_sound (h : m.Shaped)
    {find : Bindings (Tree Node) → View → Except RuntimeError Deed}
    (found : ∀ v, Gives Deed.Shaped (find m.procedures v)) : (m.attempt find).Sound := by
  have now := found m.view
  unfold attempt
  cases e : find m.procedures m.view with
  | ok d =>
    rw [e] at now
    cases now with
    | ok shape => exact carryOut_sound h shape
  | error err =>
    rw [e] at now
    cases now with
    | error ordinary =>
      apply Progress.Sound.ended
      intro other same
      cases same
      exact ordinary

theorem proceed_sound (h : m.Shaped)
    {find : Bindings (Tree Node) → View → Except RuntimeError Deed}
    (found : ∀ v, Gives Deed.Shaped (find m.procedures v)) : (m.proceed find).Sound := by
  unfold proceed
  split
  · exact .ended fun e same => nomatch same
  · rename_i host _
    have looked : ({ m with host } : Machine ω).Shaped := ⟨h.tasks, h.procedures⟩
    exact attempt_sound looked found

theorem step_sound (h : m.Shaped) : m.step.Sound := by
  obtain ⟨tasks, globals, frames, procedures, host⟩ := m
  cases tasks with
  | nil => exact .ended fun e same => nomatch same
  | cons t tasks =>
    have first : t.Shaped := h.tasks t (by simp)
    have others : ∀ u ∈ tasks, u.Shaped := fun u member => h.tasks u (by simp [member])
    have rest : (⟨tasks, globals, frames, procedures, host⟩ : Machine ω).Shaped :=
      ⟨others, h.procedures⟩
    cases t with
    | visit t =>
      apply proceed_sound rest
      intro v
      rcases first with program | command
      · exact define_gives h.procedures v program
      · exact command_gives h.procedures v command
    | times count body =>
      cases count with
      | zero => exact .going rest
      | succ count =>
        have again : ∀ u ∈ [Task.visit body, .times count body], u.Shaped := by
          simpa [Task.Shaped] using ⟨.inr first, first⟩
        exact .going (rest.todo again)
    | loop condition body =>
      apply proceed_sound rest
      intro v
      exact round_gives v first.1 first.2
    | leave => exact .going ⟨others, h.procedures⟩

theorem steps_sound (h : m.Shaped) (n : Nat) : (m.steps n).Sound := by
  induction n generalizing m with
  | zero => exact .going h
  | succ n ih =>
    have stepped := step_sound h
    unfold steps
    cases e : m.step with
    | going k =>
      rw [e] at stepped
      cases stepped with
      | going shaped => exact ih shaped
    | ended o k =>
      rw [e] at stepped
      exact stepped

theorem start_shaped (m : Machine ω) {t : Tree Node} (shape : IsProgram t) :
    (m.start t).Shaped := by
  refine ⟨?_, sorted_empty⟩
  intro task member
  obtain rfl := List.mem_singleton.mp member
  exact .inl shape

theorem run_sound (m : Machine ω) {t : Tree Node} (shape : IsProgram t) (limit : Nat) :
    ∀ e k, m.run limit t = .ended (.failed e) k → e.Ordinary := by
  have sound := steps_sound (m.start_shaped shape) limit
  unfold run
  cases end_eq : (m.start t).steps limit with
  | going k => simp
  | ended o k =>
    rw [end_eq] at sound
    cases sound with
    | ended ordinary =>
      intro e other same
      cases same
      exact ordinary e rfl

end Machine

namespace Program

theorem parse_shape {source : String} {p : Program} (accepted : parse source = .ok p) :
    IsProgram p.tree := by
  obtain ⟨s, -, tree⟩ := derives_of_parse accepted
  rw [tree]
  exact s.shape

/-- A program that was read from a text never fails for a malformed node or an unknown command, on
any host and however long it runs. -/
theorem run_parsed_ordinary {ω : Type} [Host ω] {source : String} {p : Program}
    (accepted : parse source = .ok p) (limit : Nat) (m : Machine ω) {e : RuntimeError}
    {k : Machine ω} (failed : p.run limit m = .ended (.failed e) k) : e.Ordinary :=
  m.run_sound (parse_shape accepted) limit e k failed

theorem run_parsed_ordinary_unset :
    ∃ p k, parse "forward x" = .ok p ∧
      p.run 9 (.new (Stage.quiet Sketch.blank (.new Pace.fastest false))) =
        .ended (.failed (.undefinedVariable "x")) k ∧
      (RuntimeError.undefinedVariable "x").Ordinary := by
  let s : Script :=
    ⟨[], .move .forward (.signed none (.name "x") .nil .nil) ⟨"\n", []⟩, [], []⟩
  have derived : Derives "forward x" s := by
    refine ⟨by decide +kernel, ?_⟩
    simp [s, Script.Longest, Phrase.Command.Longest, Phrase.Expression.LongestBefore,
      Phrase.Addends.Longest, Phrase.Factor.Longest, Phrase.Factors.Longest,
      Phrase.LineEnd.tokens, Phrase.startsSigned, Phrase.endOfLine, Phrase.mark]
  obtain ⟨p, accepted, tree⟩ := derived.parsed
  have ran : ∃ k, p.run 9 (.new (Stage.quiet Sketch.blank (.new Pace.fastest false))) =
      .ended (.failed (.undefinedVariable "x")) k := by
    unfold run
    rw [tree]
    exact ⟨_, rfl⟩
  obtain ⟨k, failed⟩ := ran
  exact ⟨p, k, accepted, failed, run_parsed_ordinary accepted 9 _ failed⟩

end Program

end TurtleGraphics
