import TurtleGraphics.Proofs.Run.Disturbance
import TurtleGraphics.Proofs.Run.Failure

/-!
Runs whose switches nobody touches. The speed makes no difference to what such a run does, unless it
is 0: then the run is held for ever after its first order.
-/

namespace TurtleGraphics

variable {τ : Type}

namespace Stage

def atPace (s : Stage τ) (pace : Pace) : Stage τ :=
  { s with pace }

theorem Unattended.atPace {s : Stage τ} (h : s.Unattended) {pace : Pace}
    (on : pace.stopped = false) : (s.atPace pace).Unattended :=
  ⟨h.pending, h.script, on⟩

end Stage

namespace Machine

def atPace (pace : Pace) (m : Machine (Stage τ)) : Machine (Stage τ) :=
  { m with host := m.host.atPace pace }

inductive Paced (pace : Pace) : Progress (Stage τ) → Progress (Stage τ) → Prop
  | going {m : Machine (Stage τ)} (h : m.host.Unattended) :
    Paced pace (.going m) (.going (m.atPace pace))
  | finished {m : Machine (Stage τ)} :
    Paced pace (.ended .finished m) (.ended .finished (m.atPace pace))
  | failed {m : Machine (Stage τ)} {e : RuntimeError} :
    Paced pace (.ended (.failed e) m) (.ended (.failed e) (m.atPace pace))
  | held {m : Machine (Stage τ)} {p : Progress (Stage τ)} : Paced pace (.ended .held m) p

theorem Paced.of_ended {pace : Pace} {o : Outcome} {m : Machine (Stage τ)} {q : Progress (Stage τ)}
    (paced : Paced pace (.ended o m) q) (released : o ≠ .held) :
    q = .ended o (m.atPace pace) := by
  cases paced with
  | finished | failed => rfl
  | held => exact absurd rfl released

theorem store_atPace (m : Machine (Stage τ)) (pace : Pace) (name : String) (x : Float) :
    (m.atPace pace).store name x = (m.store name x).atPace pace := by
  unfold store atPace
  cases m.frames with
  | nil => rfl
  | cons frame callers =>
    dsimp only
    split <;> rfl

variable [Turtle τ] {m : Machine (Stage τ)} {pace : Pace}

section Paced

variable (h : m.host.Unattended) (on : pace.stopped = false) (free : pace.holds = false)

include h on free

theorem settle_paced : Paced pace m.settle (m.atPace pace).settle := by
  have other : Host.settle (m.atPace pace).host = (.go, (m.atPace pace).host) :=
    (h.atPace on).goes free
  cases holds : m.host.pace.holds with
  | true =>
    have mine : Host.settle m.host = (.held, m.host) := h.held holds
    simp only [settle, mine]
    exact .held
  | false =>
    have mine : Host.settle m.host = (.go, m.host) := h.goes holds
    simp only [settle, mine, other]
    exact .going h

theorem carryOut_paced (d : Deed) : Paced pace (m.carryOut d) ((m.atPace pace).carryOut d) := by
  cases d with
  | order o => exact settle_paced (m := m.perform (.order o)) (h.order o) on free
  | store name x =>
    simp only [carryOut, store_atPace]
    refine .going (m := (m.store name x).perform _) ?_
    change (m.store name x).host.Unattended
    rwa [store_host]
  | push | define | call => exact .going h

theorem attempt_paced (find : Bindings (Tree Node) → View → Except RuntimeError Deed) :
    Paced pace (m.attempt find) ((m.atPace pace).attempt find) := by
  have known : (m.atPace pace).procedures = m.procedures := rfl
  have seen : (m.atPace pace).view = m.view := rfl
  unfold attempt
  rw [known, seen]
  cases find m.procedures m.view with
  | ok d => exact carryOut_paced h on free d
  | error e => exact .failed

theorem proceed_paced (find : Bindings (Tree Node) → View → Except RuntimeError Deed) :
    Paced pace (m.proceed find) ((m.atPace pace).proceed find) := by
  have other : Host.poll (m.atPace pace).host = (false, (m.atPace pace).host) :=
    (h.atPace on).poll
  unfold proceed
  rw [h.poll, other]
  exact attempt_paced h on free find

theorem step_paced : Paced pace m.step (m.atPace pace).step := by
  obtain ⟨tasks, globals, frames, procedures, host⟩ := m
  cases tasks with
  | nil => exact .finished
  | cons task tasks =>
    let rest : Machine (Stage τ) := ⟨tasks, globals, frames, procedures, host⟩
    cases task with
    | visit t => exact proceed_paced (m := rest) h on free (deed · · t)
    | times count body =>
      cases count with
      | zero => exact .going (m := rest) h
      | succ count =>
        exact .going (m := { rest with tasks := .visit body :: .times count body :: tasks }) h
    | loop condition body =>
      exact proceed_paced (m := rest) h on free fun _ v => round v condition body
    | leave => exact .going (m := { rest with frames := frames.tail }) h

theorem steps_paced (n : Nat) : Paced pace (m.steps n) ((m.atPace pace).steps n) := by
  induction n generalizing m with
  | zero => exact .going h
  | succ n ih =>
    have one := step_paced h on free
    unfold steps
    generalize m.step = p at one
    generalize (m.atPace pace).step = q at one
    cases one with
    | going next => exact ih next
    | finished => exact .finished
    | failed => exact .failed
    | held => exact .held

end Paced

theorem start_quiet (turtle : τ) {pace : Pace} (on : pace.stopped = false) (t : Tree Node) :
    (new (Stage.quiet turtle pace)).start t =
      ⟨[.visit t], .empty, [], .empty, .quiet turtle pace⟩ := by
  obtain ⟨paused, stopped, speed⟩ := pace
  cases on
  rfl

theorem run_paced (turtle : τ) {own : Pace} (here : own.stopped = false)
    (on : pace.stopped = false) (free : pace.holds = false) (t : Tree Node) (limit : Nat) :
    Paced pace ((new (Stage.quiet turtle own)).run limit t)
      ((new (Stage.quiet turtle pace)).run limit t) := by
  have steps : Paced pace (((new (Stage.quiet turtle own)).start t).steps limit)
      (((new (Stage.quiet turtle pace)).start t).steps limit) := by
    rw [start_quiet turtle here, start_quiet turtle on]
    exact steps_paced (Stage.quiet_unattended turtle here) on free limit
  unfold run
  generalize ((new (Stage.quiet turtle own)).start t).steps limit = p at steps
  generalize ((new (Stage.quiet turtle pace)).start t).steps limit = q at steps
  cases steps with
  | going h => exact .going h
  | finished => exact .finished (m := Machine.finish _)
  | failed => exact .failed (m := Machine.finish _)
  | held => exact .held

/-- A run that ends at some pace ends alike at any that lets the turtle go. -/
theorem run_freely {turtle : τ} {own : Pace} (here : own.stopped = false)
    (on : pace.stopped = false) (free : pace.holds = false) {t : Tree Node} {limit : Nat}
    {o : Outcome} (ended : (new (Stage.quiet turtle own)).run limit t = .ended o m)
    (released : o ≠ .held) :
    (new (Stage.quiet turtle pace)).run limit t = .ended o (m.atPace pace) := by
  have paced := run_paced turtle here on free t limit
  rw [ended] at paced
  exact paced.of_ended released

theorem ne_stopped_of_run {turtle : τ} {own : Pace} (here : own.stopped = false) {t : Tree Node}
    {limit : Nat} {o : Outcome} (ended : (new (Stage.quiet turtle own)).run limit t = .ended o m) :
    o ≠ .stopped := by
  have paced : Paced (.new Pace.fastest false) _ _ := run_paced turtle here rfl rfl t limit
  rw [ended] at paced
  rintro rfl
  cases paced

theorem steps_of_run {ω : Type} [Host ω] {m k : Machine ω} {t : Tree Node} {limit : Nat}
    {o : Outcome} (ended : m.run limit t = .ended o k) :
    ∃ l, (m.start t).steps limit = .ended o l ∧ l.finish = k := by
  unfold run at ended
  cases last : (m.start t).steps limit with
  | going l =>
    rw [last] at ended
    cases ended
  | ended o' l =>
    rw [last] at ended
    cases ended
    exact ⟨l, rfl, rfl⟩

/-- Two runs of one tree that both end end alike, whatever their paces. -/
theorem run_same {turtle : τ} {own other : Pace} (here : own.stopped = false)
    (there : other.stopped = false) {t : Tree Node} {i j : Nat} {o o' : Outcome}
    {k : Machine (Stage τ)} (first : (new (Stage.quiet turtle own)).run i t = .ended o m)
    (second : (new (Stage.quiet turtle other)).run j t = .ended o' k) (released : o ≠ .held)
    (released' : o' ≠ .held) : o = o' ∧ m.host.turtle = k.host.turtle := by
  let free : Pace := .new Pace.fastest false
  have first : (new (Stage.quiet turtle free)).run i t = .ended o (m.atPace free) :=
    run_freely here rfl rfl first released
  have second : (new (Stage.quiet turtle free)).run j t = .ended o' (k.atPace free) :=
    run_freely there rfl rfl second released'
  obtain ⟨l, ended, finished⟩ := steps_of_run first
  obtain ⟨l', ended', finished'⟩ := steps_of_run second
  obtain ⟨rfl, rfl⟩ := ended_unique ended ended'
  have same : m.atPace free = k.atPace free := finished.symm.trans finished'
  exact ⟨rfl, congrArg (·.host.turtle) same⟩

end Machine

end TurtleGraphics
