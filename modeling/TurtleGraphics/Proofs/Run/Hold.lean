import TurtleGraphics.Proofs.Run.Timeline
import TurtleGraphics.Turtle.Sketch

/-!
A pause and speed 0 hold the turtle. Whenever it has done what it was told, the run waits for a
moment at which nothing holds the turtle, and goes on only then.
-/

namespace TurtleGraphics

open Happening

variable {τ : Type}

namespace Pace

structure Free (p : Pace) : Prop where
  on : p.stopped = false
  unpaused : p.paused = false
  moves : 0 < p.speed

theorem free_of_not_holds {p : Pace} (on : p.stopped = false) (go : p.holds = false) : p.Free := by
  obtain ⟨unpaused, moves⟩ := Bool.or_eq_false_iff.mp go
  exact ⟨on, unpaused, Nat.pos_of_ne_zero (by simpa using moves)⟩

end Pace

namespace Happening

theorem switches_speed_le {p : Pace} (bound : p.speed ≤ Pace.fastest) (hs : List Happening) :
    (switches p hs).speed ≤ Pace.fastest := by
  induction hs generalizing p with
  | nil => exact bound
  | cons h hs ih =>
    cases h with
    | action a => exact ih (Pace.act_speed_le bound a)
    | look | told | obeyed | released | stored => exact ih bound

end Happening

/-- After the turtle was told something it did that, and then there came a moment at which nothing
held it and the run went on. `p` is how the switches were when the turtle was told. -/
def Freed (p : Pace) (o : Order) (hs : List Happening) : Prop :=
  ∃ obeying waiting rest, hs = obeying ++ .obeyed o :: (waiting ++ .released :: rest) ∧
    (switches p (obeying ++ .obeyed o :: waiting)).Free

namespace Path

variable {s s' : Standing} {hs : List Happening}

/-- A run that waits goes on only if it is released. -/
theorem released_of_waiting (path : Path s hs s') (waits : s.phase = .waiting)
    (idle : s'.phase.Idle) :
    ∃ waiting rest, hs = waiting ++ .released :: rest ∧ (switches s.pace waiting).Free := by
  induction path with
  | nil =>
    rw [waits] at idle
    cases idle
  | cons lead rest ih =>
    cases lead with
    | action a =>
      obtain ⟨waiting, others, rfl, free⟩ := ih waits idle
      exact ⟨.action a :: waiting, others, rfl, free⟩
    | wake =>
      obtain ⟨waiting, others, rfl, free⟩ := ih waits idle
      exact ⟨_ :: waiting, others, rfl, free⟩
    | release on go => exact ⟨[], _, rfl, Pace.free_of_not_holds on go⟩
    | stop =>
      rw [(rest.of_halted rfl).1] at idle
      cases idle
    | enter other =>
      cases waits
      cases other
    | tell | obey | store => cases waits

theorem freed_of_obeying {o : Order} (path : Path s hs s') (obeys : s.phase = .obeying o)
    (idle : s'.phase.Idle) : Freed s.pace o hs := by
  induction path with
  | nil =>
    rw [obeys] at idle
    cases idle
  | cons lead rest ih =>
    cases lead with
    | action a =>
      obtain ⟨obeying, waiting, others, rfl, free⟩ := ih obeys idle
      exact ⟨.action a :: obeying, waiting, others, rfl, free⟩
    | obey =>
      cases obeys
      obtain ⟨waiting, others, rfl, free⟩ := rest.released_of_waiting rfl idle
      exact ⟨[], waiting, others, rfl, free⟩
    | enter other =>
      cases obeys
      cases other
    | stop looks =>
      cases obeys
      rcases looks with (_ | _) | other
      cases other
    | tell | wake | release | store => cases obeys

theorem freed_of_told {o : Order} (path : Path s (.told o :: hs) s') (idle : s'.phase.Idle) :
    Freed s.pace o hs := by
  cases path with
  | cons lead rest =>
    cases lead with
    | tell => exact rest.freed_of_obeying rfl idle

/-- Only a run that has looked at the switches tells the turtle something. -/
theorem idle_of_told {o : Order} (path : Path s (.told o :: hs) s') : s.phase.Idle := by
  cases path with
  | cons lead _ =>
    cases lead with
    | tell => exact .entered

end Path

namespace Machine

variable [Turtle τ]

structure Held (p : Pace) (ran : Progress (Timeline τ)) : Prop where
  /-- between two orders the turtle was free to move on -/
  between : ∀ early o rest o' late,
    ran.machine.host.past = early ++ .told o :: (rest ++ .told o' :: late) →
      Freed (switches p early) o rest
  /-- so it was before a run came to its end or to an error -/
  atEnd : ∀ early o rest outcome k, ran = .ended outcome k → outcome ≠ .stopped →
    outcome ≠ .held → k.host.past = early ++ .told o :: rest → Freed (switches p early) o rest
  speed : ∀ early, early <+: ran.machine.host.past → (switches p early).speed ≤ Pace.fastest

/-- `earlier` is what has been done to the switches before the run. -/
theorem run_held (turtle : τ) (speed : Nat) (paused : Bool) (earlier : List Pace.Action)
    (coming : List Pace.Moment) (t : Tree Node) (limit : Nat) :
    let p := (Pace.new speed paused).actAll earlier
    Held p ((Machine.new (Timeline.new turtle p coming)).run limit t) := by
  intro p
  have bound : p.speed ≤ Pace.fastest :=
    Pace.actAll_speed_le (Pace.new_speed_le speed paused) earlier
  obtain ⟨hs, s, past, path, stands⟩ :=
    (Machine.new (Timeline.new turtle p coming)).run_reaches t limit
  change _ = [] ++ hs at past
  rw [List.nil_append] at past
  refine ⟨?_, ?_, fun early _ => switches_speed_le bound early⟩
  · intro early o rest o' late split
    rw [past.symm.trans split] at path
    obtain ⟨s₁, first, others⟩ := path.split
    rw [← List.cons_append] at others
    obtain ⟨s₂, told, next⟩ := others.split
    have freed := told.freed_of_told next.idle_of_told
    rw [first.pace_eq] at freed
    exact freed
  · intro early o rest outcome k ends unstopped released split
    rw [ends] at past stands
    rw [past.symm.trans split] at path
    obtain ⟨s₁, first, told⟩ := path.split
    cases stands with
    | stopped => exact absurd rfl unstopped
    | held => exact absurd rfl released
    | ended _ _ idle =>
      have freed := told.freed_of_told idle
      rw [first.pace_eq] at freed
      exact freed

/-- A run that begins while paused waits after its first order until it is resumed. -/
example :
    let nothing : Pace.Moment := ⟨[], false⟩
    let l := Timeline.new Sketch.blank (.new Pace.fastest true)
      [nothing, nothing, nothing, nothing, nothing, ⟨[.resume], false⟩]
    let paused : Pace := ⟨true, false, Pace.fastest⟩
    ((Machine.new l).run 9 (.node (.ofToken ⟨.keyword, "penup"⟩) [])).machine.host.past =
      [.action .reset, .look paused, .told .penUp, .obeyed .penUp, .look paused,
        .action .resume, .look ⟨false, false, Pace.fastest⟩, .released] := rfl

end Machine

end TurtleGraphics
