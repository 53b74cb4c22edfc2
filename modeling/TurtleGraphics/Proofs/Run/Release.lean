import TurtleGraphics.Proofs.Run.Log
import TurtleGraphics.Proofs.Run.Step
import TurtleGraphics.Turtle.Sketch

/-!
Switches that never hold a run for ever. A controller may pause the turtle and slow it down to
speed 0, as long as it lets it go again by what it does later.
-/

namespace TurtleGraphics

structure Host.Releases {ω : Type} [Host ω] (P : ω → Prop) : Prop extends Host.Keeps P where
  released : ∀ h, P h → (Host.settle h).1 ≠ .held

namespace Machine

variable {ω : Type} [Host ω] {P : ω → Prop} {m : Machine ω}

theorem settle_released (releases : Host.Releases P) (there : P m.host) (k : Machine ω) :
    m.settle ≠ .ended .held k := by
  intro held
  have waits := m.settle_awaits
  rw [held] at waits
  cases waits with
  | held settled => exact releases.released m.host there (congrArg Prod.fst settled)

theorem carryOut_released (releases : Host.Releases P) (there : P m.host) (d : Deed)
    (k : Machine ω) : m.carryOut d ≠ .ended .held k := by
  cases d with
  | order o =>
    have told : P (m.perform (.order o)).host := releases.perform (.order o) m.host there
    exact settle_released releases told k
  | store | push | define | call => exact fun held => by cases held

theorem proceed_released (releases : Host.Releases P) (there : P m.host)
    (find : Bindings (Tree Node) → View → Except RuntimeError Deed) (k : Machine ω) :
    m.proceed find ≠ .ended .held k := by
  have polled := releases.poll m.host there
  have turns := m.proceed_turns find
  generalize m.proceed find = p at turns
  cases turns with
  | stopped | refused => exact fun held => by cases held
  | @carried host d looked found =>
    rw [looked] at polled
    exact carryOut_released (m := { m with host }) releases polled d k

theorem step_released (releases : Host.Releases P) (there : P m.host) (k : Machine ω) :
    m.step ≠ .ended .held k := by
  obtain ⟨tasks, globals, frames, procedures, host⟩ := m
  cases tasks with
  | nil => exact fun held => by cases held
  | cons task tasks =>
    let rest : Machine ω := ⟨tasks, globals, frames, procedures, host⟩
    cases task with
    | visit t => exact proceed_released (m := rest) releases there (deed · · t) k
    | times count body => cases count <;> exact fun held => by cases held
    | loop condition body =>
      exact proceed_released (m := rest) releases there (fun _ v => round v condition body) k
    | leave => exact fun held => by cases held

theorem steps_released (releases : Host.Releases P) (there : P m.host) (n : Nat) (k : Machine ω) :
    m.steps n ≠ .ended .held k := by
  induction n generalizing m with
  | zero => exact fun held => by cases held
  | succ n ih =>
    have kept := step_keeps releases.toKeeps there
    have released := step_released releases there k
    unfold steps
    cases e : m.step with
    | going l =>
      rw [e] at kept
      exact ih kept
    | ended o l =>
      rw [e] at released
      exact released

end Machine

namespace Pace

def played (p : Pace) (ms : List Moment) : Pace :=
  ms.foldl (fun p m => p.actAll m.actions) p

structure Goes (r : Settled × Pace × List Moment) : Prop where
  released : r.1 ≠ .held
  free : (r.2.1.played r.2.2).holds = false

variable {p : Pace} {ms : List Moment}

theorem wait_goes (free : (p.played ms).holds = false) : Goes (p.wait ms) := by
  induction ms generalizing p with
  | nil =>
    have go : p.holds = false := free
    unfold wait
    split
    · exact ⟨by simp, free⟩
    · rw [if_pos (by simp [go])]
      exact ⟨by simp, free⟩
  | cons m ms ih =>
    unfold wait
    split
    · exact ⟨by simp, free⟩
    · split
      · exact ⟨by simp, free⟩
      · exact ih free

theorem delay_goes (free : (p.played ms).holds = false) : Goes (p.delay ms) := by
  induction ms generalizing p with
  | nil =>
    unfold delay
    split
    · exact ⟨by simp, free⟩
    · exact wait_goes free
  | cons m ms ih =>
    unfold delay
    split
    · exact ⟨by simp, free⟩
    · dsimp only
      split
      · exact wait_goes free
      · exact ih free

theorem played_look (p : Pace) (ms : List Moment) :
    (p.look ms).1.played (p.look ms).2 = p.played ms := by
  cases ms <;> rfl

theorem settle_goes (free : (p.played ms).holds = false) : Goes (p.settle ms) := by
  rw [← played_look] at free
  unfold settle
  dsimp only
  split
  · exact delay_goes free
  · exact wait_goes free

end Pace

namespace Stage

variable {τ : Type}

structure Relents (s : Stage τ) : Prop where
  pending : (s.pace.played s.pending).holds = false
  script : ∀ (n : Nat) (p : Pace), p.holds = false → (p.played (s.script n)).holds = false

theorem relents_releases [Turtle τ] : Host.Releases (Relents (τ := τ)) where
  perform e s relents := by
    cases e with
    | order o =>
      refine ⟨?_, relents.script⟩
      have later := relents.script (s.orders + 1) _ relents.pending
      rwa [Pace.played, Pace.played, ← List.foldl_append] at later
    | store => exact relents
  poll s relents := by
    have looked := relents.pending
    rw [← Pace.played_look] at looked
    exact ⟨looked, relents.script⟩
  settle s relents := ⟨(Pace.settle_goes relents.pending).free, relents.script⟩
  released s relents := (Pace.settle_goes relents.pending).released

end Stage

end TurtleGraphics
