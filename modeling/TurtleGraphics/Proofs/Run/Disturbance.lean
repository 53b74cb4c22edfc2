import TurtleGraphics.Proofs.Run.Log
import TurtleGraphics.Turtle.Sketch

/-!
What is done to the switches during a run can cut the run short and nothing else: the run goes step
by step like one whose switches nobody touches, until it is stopped or held.
-/

namespace TurtleGraphics

variable {τ : Type}

namespace Pace

theorem settle_of_not_holds {p : Pace} (on : p.stopped = false) (free : p.holds = false) :
    p.settle [] = (.go, p, []) := by
  have waits : p.wait [] = (.go, p, []) := by simp [wait, on, free]
  have delays : p.delay [] = (.go, p, []) := by simp [delay, on, waits]
  simp only [settle, look, waits, delays, ite_self]

theorem settle_of_holds {p : Pace} (on : p.stopped = false) (holds : p.holds = true) :
    p.settle [] = (.held, p, []) := by
  have waits : p.wait [] = (.held, p, []) := by simp [wait, on, holds]
  have delays : p.delay [] = (.held, p, []) := by simp [delay, on, waits]
  simp only [settle, look, waits, delays, ite_self]

end Pace

namespace Stage

structure Unattended (s : Stage τ) : Prop where
  pending : s.pending = []
  script : ∀ n, s.script n = []
  on : s.pace.stopped = false

theorem quiet_unattended (turtle : τ) {pace : Pace} (on : pace.stopped = false) :
    (quiet turtle pace).Unattended :=
  ⟨rfl, fun _ => rfl, on⟩

namespace Unattended

variable {s : Stage τ}

theorem order [Turtle τ] (h : s.Unattended) (o : Order) : (s.order o).Unattended where
  pending := by simp [Stage.order, h.pending, h.script]
  script := h.script
  on := h.on

theorem look (h : s.Unattended) : s.look = s := by
  simp only [Stage.look, h.pending, Pace.look]
  rw [← h.pending]

theorem poll [Turtle τ] (h : s.Unattended) : Host.poll s = (false, s) := by
  change (s.look.pace.stopped, s.look) = (false, s)
  rw [h.look, h.on]

theorem goes (h : s.Unattended) (free : s.pace.holds = false) : s.settle = (.go, s) := by
  simp only [Stage.settle, h.pending, Pace.settle_of_not_holds h.on free]
  rw [← h.pending]

theorem held (h : s.Unattended) (holds : s.pace.holds = true) : s.settle = (.held, s) := by
  simp only [Stage.settle, h.pending, Pace.settle_of_holds h.on holds]
  rw [← h.pending]

end Unattended

end Stage

structure Twin (pace : Pace) (l k : Logged (Stage τ)) : Prop where
  turtle : k.host.turtle = l.host.turtle
  effects : k.effects = l.effects
  unattended : k.host.Unattended
  pace : k.host.pace = pace

namespace Twin

variable {pace : Pace} {l k : Logged (Stage τ)}

theorem orders (h : Twin pace l k) : k.orders = l.orders :=
  congrArg (List.filterMap _) h.effects

variable [Turtle τ]

theorem perform (h : Twin pace l k) (e : Effect) :
    Twin pace (Host.perform e l) (Host.perform e k) := by
  have effects : (Host.perform e k).effects = (Host.perform e l).effects :=
    congrArg (· ++ [e]) h.effects
  cases e with
  | order o => exact ⟨congrArg (Turtle.obey o) h.turtle, effects, h.unattended.order o, h.pace⟩
  | store name x => exact ⟨h.turtle, effects, h.unattended, h.pace⟩

theorem poll (h : Twin pace l k) : Host.poll k = (false, k) ∧ Twin pace (Host.poll l).2 k := by
  refine ⟨?_, h.turtle, h.effects, h.unattended, h.pace⟩
  change (k.host.look.pace.stopped, { k with host := k.host.look }) = (false, k)
  rw [h.unattended.look, h.unattended.on]

theorem settled (h : Twin pace l k) : Twin pace (Host.settle l).2 k :=
  ⟨h.turtle, h.effects, h.unattended, h.pace⟩

theorem goes (h : Twin pace l k) (free : pace.holds = false) : Host.settle k = (.go, k) := by
  change (k.host.settle.1, { k with host := k.host.settle.2 }) = (.go, k)
  rw [h.unattended.goes (h.pace.symm ▸ free)]

theorem held (h : Twin pace l k) (holds : pace.holds = true) : Host.settle k = (.held, k) := by
  change (k.host.settle.1, { k with host := k.host.settle.2 }) = (.held, k)
  rw [h.unattended.held (h.pace.symm ▸ holds)]

end Twin

inductive Follows (pace : Pace) :
    Progress (Logged (Stage τ)) → Progress (Logged (Stage τ)) → Prop
  | going {m : Machine (Logged (Stage τ))} {k : Logged (Stage τ)} (h : Twin pace m.host k) :
    Follows pace (.going m) (.going { m with host := k })
  | ended {o : Outcome} {m : Machine (Logged (Stage τ))} {k : Logged (Stage τ)}
    (h : Twin pace m.host k) : Follows pace (.ended o m) (.ended o { m with host := k })
  | cut {o : Outcome} {m : Machine (Logged (Stage τ))} {p : Progress (Logged (Stage τ))}
    (ho : o = .stopped ∨ o = .held) (h : m.host.effects <+: p.machine.host.effects) :
    Follows pace (.ended o m) p
  | held {p : Progress (Logged (Stage τ))} {m : Machine (Logged (Stage τ))}
    (h : pace.holds = true) : Follows pace p (.ended .held m)

namespace Machine

theorem store_onto (m : Machine (Logged (Stage τ))) (k : Logged (Stage τ)) (name : String)
    (x : Float) : ({ m with host := k } : Machine _).store name x =
      { m.store name x with host := k } := by
  unfold store
  cases m.frames with
  | nil => rfl
  | cons frame callers =>
    dsimp only
    split <;> rfl

variable [Turtle τ] {pace : Pace} {m : Machine (Logged (Stage τ))} {k : Logged (Stage τ)}

theorem effects_attempt (m : Machine (Logged (Stage τ)))
    (find : Bindings (Tree Node) → View → Except RuntimeError Deed) :
    m.host.effects <+: (m.attempt find).machine.host.effects :=
  attempt_keeps (Logged.keeps_log _) (List.prefix_refl _) find

theorem effects_steps (m : Machine (Logged (Stage τ))) (n : Nat) :
    m.host.effects <+: (m.steps n).machine.host.effects :=
  steps_keeps (Logged.keeps_log _) (List.prefix_refl _) n

theorem view_twin (h : Twin pace m.host k) : ({ m with host := k } : Machine _).view = m.view := by
  have x : Host.x k = Host.x m.host := congrArg Turtle.x h.turtle
  have y : Host.y k = Host.y m.host := congrArg Turtle.y h.turtle
  simp only [view, x, y]
  rfl

theorem settle_follows (h : Twin pace m.host k) :
    Follows pace m.settle { m with host := k }.settle := by
  cases holds : pace.holds with
  | true =>
    have stays : ({ m with host := k } : Machine _).settle = .ended .held { m with host := k } := by
      simp only [settle, h.held holds]
    rw [stays]
    exact .held holds
  | false =>
    have goes : ({ m with host := k } : Machine _).settle = .going { m with host := k } := by
      simp only [settle, h.goes holds]
    have twin := h.settled
    rw [goes]
    unfold settle
    split
    · rename_i host e
      rw [e] at twin
      exact .going twin
    · rename_i host e
      rw [e] at twin
      exact .cut (.inl rfl) (twin.effects ▸ List.prefix_refl _)
    · rename_i host e
      rw [e] at twin
      exact .cut (.inr rfl) (twin.effects ▸ List.prefix_refl _)

theorem carryOut_follows (h : Twin pace m.host k) (d : Deed) :
    Follows pace (m.carryOut d) ({ m with host := k }.carryOut d) := by
  cases d with
  | order o => exact settle_follows (m := m.perform (.order o)) (h.perform _)
  | store name x =>
    simp only [carryOut, store_onto]
    refine .going (m := (m.store name x).perform _) ?_
    simp only [perform, store_host]
    exact h.perform _
  | push | define | call => exact .going h

theorem attempt_follows (h : Twin pace m.host k)
    (find : Bindings (Tree Node) → View → Except RuntimeError Deed) :
    Follows pace (m.attempt find) ({ m with host := k }.attempt find) := by
  unfold attempt
  rw [view_twin h]
  dsimp only
  cases find m.procedures m.view with
  | ok d => exact carryOut_follows h d
  | error e => exact .ended h

theorem proceed_follows (h : Twin pace m.host k)
    (find : Bindings (Tree Node) → View → Except RuntimeError Deed) :
    Follows pace (m.proceed find) ({ m with host := k }.proceed find) := by
  obtain ⟨goes, twin⟩ := h.poll
  unfold proceed
  rw [goes]
  split
  · rename_i host e
    rw [e] at twin
    have same : host.effects = k.effects := twin.effects.symm
    exact .cut (.inl rfl) (same ▸ effects_attempt { m with host := k } find)
  · rename_i host e
    rw [e] at twin
    exact attempt_follows (m := { m with host }) twin find

theorem step_follows (h : Twin pace m.host k) : Follows pace m.step { m with host := k }.step := by
  obtain ⟨tasks, globals, frames, procedures, host⟩ := m
  cases tasks with
  | nil => exact .ended h
  | cons task tasks =>
    let rest : Machine (Logged (Stage τ)) := ⟨tasks, globals, frames, procedures, host⟩
    cases task with
    | visit t => exact proceed_follows (m := rest) h (deed · · t)
    | times count body =>
      cases count with
      | zero => exact .going (m := rest) h
      | succ count =>
        exact .going (m := { rest with tasks := .visit body :: .times count body :: tasks }) h
    | loop condition body => exact proceed_follows (m := rest) h fun _ v => round v condition body
    | leave => exact .going (m := { rest with frames := frames.tail }) h

theorem steps_follows (h : Twin pace m.host k) (n : Nat) :
    Follows pace (m.steps n) ({ m with host := k }.steps n) := by
  induction n generalizing m k with
  | zero => exact .going h
  | succ n ih =>
    have one := step_follows h
    unfold steps
    generalize m.step = p at one
    generalize ({ m with host := k } : Machine _).step = q at one
    cases one with
    | going twin => exact ih twin
    | ended twin => exact .ended twin
    | cut ho log =>
      refine .cut ho ?_
      cases q with
      | going q => exact log.trans (effects_steps q n)
      | ended o q => exact log
    | held holds => exact .held holds

end Machine

structure CutShort (p q : Progress (Logged (Stage τ))) : Prop where
  orders : p.machine.host.orders <+: q.machine.host.orders
  ending : ∀ o m, p = .ended o m → o ≠ .stopped → o ≠ .held →
    ∃ k, q = .ended o k ∧ k.host.orders = m.host.orders ∧
      k.host.host.turtle = m.host.host.turtle ∧ k.globals = m.globals

namespace Machine

def undisturbed (m : Machine (Logged (Stage τ))) (pace : Pace) : Machine (Logged (Stage τ)) :=
  { m with host := ⟨.quiet m.host.host.turtle pace, m.host.effects⟩ }

variable [Turtle τ]

theorem start_twin (l : Logged (Stage τ)) (pace : Pace) :
    Twin (pace.act .reset) (Host.start l)
      (Host.start (⟨.quiet l.host.turtle pace, l.effects⟩ : Logged (Stage τ))) where
  turtle := rfl
  effects := rfl
  unattended := Stage.quiet_unattended l.host.turtle rfl
  pace := rfl

/-- Whatever is done to the switches, and whenever, the turtle is told the same as with switches
that nobody touches, up to the moment at which the run is cut. The untouched switches must not hold
the turtle, or at least not in this run. -/
theorem run_cutShort (limit : Nat) (m : Machine (Logged (Stage τ))) (t : Tree Node) {pace : Pace}
    (released : pace.holds = false ∨ ∀ k, (m.undisturbed pace).run limit t ≠ .ended .held k) :
    CutShort (m.run limit t) ((m.undisturbed pace).run limit t) := by
  have follows := steps_follows (m := m.start t) (start_twin m.host pace) limit
  change Follows _ ((m.start t).steps limit) (((m.undisturbed pace).start t).steps limit) at follows
  unfold run at released ⊢
  generalize (m.start t).steps limit = p at follows
  generalize ((m.undisturbed pace).start t).steps limit = q at follows released
  cases follows with
  | @going k l twin =>
    refine ⟨?_, fun o k e => by cases e⟩
    change k.host.orders <+: l.orders
    exact twin.orders ▸ List.prefix_refl _
  | @ended o k l twin =>
    constructor
    · change k.host.orders <+: l.orders
      exact twin.orders ▸ List.prefix_refl _
    · intro o k' e _ _
      cases e
      exact ⟨_, rfl, twin.orders, twin.turtle, rfl⟩
  | @cut o k q cut log =>
    constructor
    · cases q with
      | going q => exact log.filterMap _
      | ended o q => exact log.filterMap _
    · intro o' k' e stopped held
      cases e
      cases cut with
      | inl h => exact absurd h stopped
      | inr h => exact absurd h held
  | held holds =>
    cases released with
    | inl free =>
      have holds : pace.holds = true := holds
      rw [free] at holds
      cases holds
    | inr never => exact absurd rfl (never _)

theorem run_cutShort_of_stop :
    let program : Tree Node := .node (.ofGroup .block)
      [.node (.ofToken ⟨.keyword, "home"⟩) [], .node (.ofToken ⟨.keyword, "penup"⟩) []]
    let stage : Stage Sketch :=
      ⟨.blank, .new 0 true, [], 0, Stage.scriptOf [⟨1, [.stop], []⟩]⟩
    let m : Machine (Logged (Stage Sketch)) := .new ⟨stage, []⟩
    (Pace.new Pace.fastest false).holds = false ∧
      CutShort (m.run 9 program) ((m.undisturbed (.new Pace.fastest false)).run 9 program) :=
  ⟨by decide, run_cutShort 9 _ _ (.inl (by decide))⟩

/-- A run that is resumed goes on, and the same run with switches that stay at pause does not. -/
theorem run_not_cutShort_of_resume :
    let program : Tree Node := .node (.ofGroup .block)
      [.node (.ofToken ⟨.keyword, "penup"⟩) [], .node (.ofToken ⟨.keyword, "pendown"⟩) []]
    let stage : Stage Sketch :=
      ⟨.blank, .new Pace.fastest true, [], 0, Stage.scriptOf [⟨1, [.resume], []⟩]⟩
    let m : Machine (Logged (Stage Sketch)) := .new ⟨stage, []⟩
    ¬ CutShort (m.run 9 program) ((m.undisturbed stage.pace).run 9 program) := by
  intro program stage m cut
  have longer : ¬ (m.run 9 program).machine.host.orders.length ≤
      ((m.undisturbed stage.pace).run 9 program).machine.host.orders.length := by
    decide +kernel
  exact longer cut.orders.length_le

end Machine

end TurtleGraphics
