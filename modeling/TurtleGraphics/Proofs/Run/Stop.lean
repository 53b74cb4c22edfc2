import TurtleGraphics.Proofs.Run.Timeline
import TurtleGraphics.Turtle.Sketch

/-!
A stop takes effect at once. Once it has been asked for and is not withdrawn, the next look at the
switches ends the run. So all that can still happen is the effect of a command for which the run had
looked before the stop.
-/

namespace TurtleGraphics

open Happening

variable {τ : Type}

def Deed.effect? : Deed → Option Effect
  | .order o => some (.order o)
  | .store name x => some (.store name x)
  | .push _ | .define _ _ | .call _ _ => none

/-- The turtle is obeying, or the run waits after that. -/
def Busy (hs : List Happening) : Prop :=
  ∃ early o rest, hs = early ++ .told o :: rest ∧ .released ∉ rest

theorem Pace.stopped_act {p : Pace} (stopped : p.stopped = true) {a : Action} (other : a ≠ .reset) :
    (p.act a).stopped = true := by
  cases a with
  | stop => rfl
  | reset => exact absurd rfl other
  | pause | resume | speed => exact stopped

namespace Happening

theorem effects_cons_of_some {h : Happening} {e : Effect} (has : h.effect? = some e)
    (hs : List Happening) : effects (h :: hs) = e :: effects hs :=
  List.filterMap_cons_some has

theorem effects_cons_of_none {h : Happening} (none : h.effect? = none) (hs : List Happening) :
    effects (h :: hs) = effects hs :=
  List.filterMap_cons_none none

theorem exists_of_mem_effects {hs : List Happening} {e : Effect} (member : e ∈ effects hs) :
    ∃ early h late, hs = early ++ h :: late ∧ h.effect? = some e := by
  obtain ⟨h, inside, has⟩ := List.mem_filterMap.mp member
  obtain ⟨early, late, split⟩ := List.append_of_mem inside
  exact ⟨early, h, late, split, has⟩

/-- Where nothing on one side has an effect, something that has one is on the other side. -/
theorem split_of_effects_nil {hs ks early late : List Happening} {h : Happening} {e : Effect}
    (split : hs ++ ks = early ++ h :: late) (none : effects ks = []) (has : h.effect? = some e) :
    ∃ late', hs = early ++ h :: late' ∧ late = late' ++ ks := by
  rcases List.append_eq_append_iff.mp split with ⟨more, -, found⟩ | ⟨more, found, shorter⟩
  · rw [found, effects_append, effects_cons_of_some has] at none
    simp at none
  · cases more with
    | nil =>
      rw [← List.nil_append ks, ← shorter, effects_cons_of_some has] at none
      cases none
    | cons g more =>
      obtain ⟨rfl, rfl⟩ := List.cons.inj shorter
      exact ⟨more, found, rfl⟩

theorem split_of_quiet {hs ks early late : List Happening} {h : Happening} {e : Effect}
    (split : hs ++ ks = early ++ h :: late) (quiet : effects hs = []) (has : h.effect? = some e) :
    ∃ more, early = hs ++ more ∧ ks = more ++ h :: late := by
  rcases List.append_eq_append_iff.mp split with ⟨more, longer, found⟩ | ⟨more, shorter, found⟩
  · exact ⟨more, longer, found⟩
  · cases more with
    | nil => exact ⟨[], by simpa using shorter.symm, found.symm⟩
    | cons g more =>
      obtain ⟨rfl, -⟩ := List.cons.inj found
      rw [shorter, effects_append, effects_cons_of_some has] at quiet
      simp at quiet

/-- Where there is one effect only, it is found in one way only. -/
theorem split_unique {quiet rest early late : List Happening} {g h : Happening} {e : Effect}
    (split : quiet ++ g :: rest = early ++ h :: late) (before : effects quiet = [])
    (after : effects rest = []) (has : h.effect? = some e) : early = quiet ∧ h = g := by
  have shape : (quiet ++ [g]) ++ rest = early ++ h :: late := by simpa using split
  obtain ⟨late', first, -⟩ := split_of_effects_nil shape after has
  rcases List.eq_nil_or_concat late' with rfl | ⟨late', x, rfl⟩
  · obtain ⟨same, last⟩ := List.append_inj' first rfl
    exact ⟨same.symm, (List.singleton_inj.mp last).symm⟩
  · have longer : quiet ++ [g] = (early ++ h :: late') ++ [x] := by simpa using first
    obtain ⟨same, -⟩ := List.append_inj' longer rfl
    rw [same, effects_append, effects_cons_of_some has] at before
    simp at before

end Happening

namespace Path

variable {s s' : Standing} {hs : List Happening}

/-- A stop that nobody withdraws stands, and nothing is released. -/
theorem stopped_of_stopped (path : Path s hs s') (stopped : s.pace.stopped = true)
    (stands : .action .reset ∉ hs) : s'.pace.stopped = true ∧ .released ∉ hs := by
  induction path with
  | nil => exact ⟨stopped, by simp⟩
  | cons lead rest ih =>
    have first := List.ne_of_not_mem_cons stands
    have later := List.not_mem_of_not_mem_cons stands
    cases lead with
    | action a =>
      have other : a ≠ .reset := by
        rintro rfl
        exact first rfl
      simpa using ih (Pace.stopped_act stopped other) later
    | enter _ on | wake on | release on => cases on.symm.trans stopped
    | tell | obey | store | stop => simpa using ih stopped later

/-- After a stop there is one effect at most, and none if the run has not just looked. -/
theorem effects_of_stopped (path : Path s hs s') (stopped : s.pace.stopped = true)
    (stands : .action .reset ∉ hs) :
    (effects hs).length ≤ if s.phase = .entered then 1 else 0 := by
  induction path with
  | nil => simp [effects]
  | cons lead rest ih =>
    have first := List.ne_of_not_mem_cons stands
    have later := List.not_mem_of_not_mem_cons stands
    cases lead with
    | action a =>
      have other : a ≠ .reset := by
        rintro rfl
        exact first rfl
      exact ih (Pace.stopped_act stopped other) later
    | enter _ on | wake on | release on => cases on.symm.trans stopped
    | tell | store =>
      have further := ih stopped later
      rw [effects_cons_of_some rfl]
      simpa using further
    | obey => exact ih stopped later
    | stop =>
      obtain ⟨-, as, rfl⟩ := rest.of_halted rfl
      rw [effects_cons_of_none rfl, effects_actions]
      exact Nat.zero_le _

/-- After a stop the first look is the last thing that the run does. -/
theorem halted_of_look (path : Path s hs s') (stopped : s.pace.stopped = true)
    (stands : .action .reset ∉ hs) {q : Pace} (looked : .look q ∈ hs) : s'.phase = .halted := by
  induction path with
  | nil => cases looked
  | cons lead rest ih =>
    have first := List.ne_of_not_mem_cons stands
    have later := List.not_mem_of_not_mem_cons stands
    cases lead with
    | action a =>
      have other : a ≠ .reset := by
        rintro rfl
        exact first rfl
      exact ih (Pace.stopped_act stopped other) later (by simpa using looked)
    | enter _ on | wake on | release on => cases on.symm.trans stopped
    | tell | obey | store => exact ih stopped later (by simpa using looked)
    | stop => exact (rest.of_halted rfl).1

/-- After a stop the run does nothing more once it has looked. -/
theorem quiet_after_look {early late : List Happening} {q : Pace}
    (path : Path s (early ++ .look q :: late) s') (stopped : s.pace.stopped = true)
    (stands : .action .reset ∉ early ++ .look q :: late) :
    s'.phase = .halted ∧ ∃ as : List Pace.Action, late = as.map .action := by
  rw [List.append_cons] at path stands
  obtain ⟨s₁, first, last⟩ := path.split
  have still : .action .reset ∉ early ++ [.look q] :=
    fun reset => stands (List.mem_append_left late reset)
  have halted := first.halted_of_look stopped still
    (List.mem_append_right early (List.mem_singleton_self (Happening.look q)))
  exact last.of_halted halted

/-- What has an effect after a stop does so before the run looks again. -/
theorem unseen_before_effect {early late : List Happening} {h : Happening} {e : Effect}
    (path : Path s (early ++ h :: late) s') (stopped : s.pace.stopped = true)
    (stands : .action .reset ∉ early ++ h :: late) (has : h.effect? = some e) (q : Pace) :
    .look q ∉ early := by
  intro looked
  obtain ⟨first, second, rfl⟩ := List.append_of_mem looked
  rw [List.append_assoc, List.cons_append] at path stands
  obtain ⟨-, as, actions⟩ := path.quiet_after_look stopped stands
  have none : effects (second ++ h :: late) = [] := by rw [actions, effects_actions]
  rw [effects_append, effects_cons_of_some has] at none
  simp at none

/-- What is under way, or over, stays so until it is released, and nothing else has an effect. -/
theorem busy_until_released (path : Path s hs s') (busy : ¬ s.phase.Idle)
    (unreleased : .released ∉ hs) : ¬ s'.phase.Idle ∧ effects hs = [] := by
  induction path with
  | nil => exact ⟨busy, rfl⟩
  | cons lead rest ih =>
    have first := List.ne_of_not_mem_cons unreleased
    have later := List.not_mem_of_not_mem_cons unreleased
    cases lead with
    | action => exact ih busy later
    | enter idle => exact absurd idle busy
    | tell | store => exact absurd .entered busy
    | obey | wake | stop => exact ih (by rintro ⟨⟩) later
    | release => exact absurd rfl first

/-- From the moment at which the turtle is told something the run is busy until it is released. -/
theorem busy_of_told (path : Path s hs s') (busy : Busy hs) : ¬ s'.phase.Idle := by
  obtain ⟨early, o, rest, rfl, unreleased⟩ := busy
  obtain ⟨s₁, -, path⟩ := path.split
  cases path with
  | cons lead path =>
    cases lead with
    | tell => exact (path.busy_until_released (by rintro ⟨⟩) unreleased).1

end Path

namespace Timeline

theorem effects_wakes (p : Pace) (ms : List Pace.Moment) : effects (wakes p ms) = [] := by
  induction ms generalizing p with
  | nil => rfl
  | cons m ms ih =>
    rw [wakes, effects_append, effects_actions, List.nil_append, effects_cons_of_none rfl]
    exact ih _

/-- Waiting has no effect. -/
theorem effects_waited (l : Timeline τ) : effects l.waited = [] := by
  have release (p : Prop) [Decidable p] : effects (if p then [.released] else []) = [] := by
    split <;> rfl
  rw [waited, effects_append, effects_actions, effects_cons_of_none rfl, effects_append,
    effects_wakes, release]
  rfl

theorem performed_eq (l : Timeline τ) (e : Effect) :
    ∃ (as : List Pace.Action) (h : Happening) (rest : List Happening),
      l.performed e = as.map .action ++ h :: rest ∧ h.effect? = some e ∧ effects rest = [] := by
  cases e with
  | order o =>
    refine ⟨_, _, _, rfl, rfl, ?_⟩
    rw [effects_append, effects_actions]
    rfl
  | store name x => exact ⟨_, _, _, rfl, rfl, rfl⟩

theorem effects_looked (l : Timeline τ) : effects l.looked = [] := by
  rw [looked, effects_append, effects_actions]
  rfl

end Timeline

namespace Machine

variable [Turtle τ]

theorem settle_past (m : Machine (Timeline τ)) :
    m.settle.machine.host.past = m.host.past ++ m.host.waited := by
  have now : Host.settle m.host = (m.host.settle.1, m.host.settle.2) := rfl
  unfold settle
  rw [now]
  cases m.host.settle.1 <;> rfl

/-- A deed without an effect leaves nothing on the timeline. -/
theorem carryOut_past_of_none (m : Machine (Timeline τ)) {d : Deed} (none : d.effect? = none) :
    (m.carryOut d).machine.host.past = m.host.past := by
  cases d with
  | order | store => cases none
  | push | define | call => rfl

/-- A deed with an effect leaves that one on the timeline, and before it nothing but what a
controller does. -/
theorem carryOut_past_of_some (m : Machine (Timeline τ)) {d : Deed} {e : Effect}
    (some : d.effect? = some e) : ∃ (as : List Pace.Action) (h : Happening) (rest : List Happening),
      (m.carryOut d).machine.host.past = m.host.past ++ (as.map .action ++ h :: rest) ∧
        h.effect? = .some e ∧ effects rest = [] := by
  obtain ⟨as, h, rest, performed, has, quiet⟩ := m.host.performed_eq e
  cases d with
  | order o =>
    cases some
    refine ⟨as, h, rest ++ (m.perform (.order o)).host.waited, ?_, has, ?_⟩
    · change (m.perform (.order o)).settle.machine.host.past = _
      rw [settle_past, perform, Timeline.perform_past, performed]
      simp
    · rw [effects_append, quiet, Timeline.effects_waited]
      rfl
  | store name x =>
    cases some
    refine ⟨as, h, rest, ?_, has, quiet⟩
    change (Host.perform (.store name x) (m.store name x).host).past = _
    rw [store_host, Timeline.perform_past, performed]
  | push | define | call => cases some

/-- The run has just looked at the switches for a command, and so far only a controller has done
something. The effect is what the command comes to. -/
def Enters (m : Machine (Timeline τ)) (past : List Happening) (e : Effect) : Prop :=
  ∃ c tasks d, ∃ as : List Pace.Action, m.tasks = .visit c :: tasks ∧
    deed m.procedures m.view c = .ok d ∧ d.effect? = some e ∧
      past = (Host.poll m.host).2.past ++ as.map .action

/-- After the look nothing has an effect but what is found then. -/
theorem proceed_past (m : Machine (Timeline τ))
    (find : Bindings (Tree Node) → View → Except RuntimeError Deed) :
    (m.proceed find).machine.host.past = (Host.poll m.host).2.past ∨
      ∃ d e, ∃ as : List Pace.Action, ∃ h rest, find m.procedures m.view = .ok d ∧
        d.effect? = some e ∧ h.effect? = some e ∧ effects rest = [] ∧
          (m.proceed find).machine.host.past =
            (Host.poll m.host).2.past ++ (as.map .action ++ h :: rest) := by
  have view (host : Timeline τ) (looked : (Host.poll m.host).2 = host) :
      ({ m with host } : Machine (Timeline τ)).view = m.view := by
    rw [← looked]
    rfl
  unfold proceed
  rcases looked : Host.poll m.host with ⟨_ | _, host⟩
  · have seen := view host (by rw [looked])
    dsimp only
    unfold attempt
    rw [seen]
    cases found : find m.procedures m.view with
    | error => exact .inl rfl
    | ok d =>
      cases effect : d.effect? with
      | none => exact .inl (carryOut_past_of_none _ effect)
      | some e =>
        obtain ⟨as, h, rest, past, has, quiet⟩ :=
          carryOut_past_of_some ({ m with host } : Machine (Timeline τ)) effect
        exact .inr ⟨d, e, as, h, rest, rfl, effect, has, quiet, past⟩
  · exact .inl rfl

theorem proceed_effect (m : Machine (Timeline τ))
    {find : Bindings (Tree Node) → View → Except RuntimeError Deed} {early late : List Happening}
    {h : Happening} {e : Effect} (has : h.effect? = some e)
    (past : (m.proceed find).machine.host.past = m.host.past ++ (early ++ h :: late)) :
    ∃ d, ∃ as : List Pace.Action, find m.procedures m.view = .ok d ∧ d.effect? = some e ∧
      m.host.past ++ early = (Host.poll m.host).2.past ++ as.map .action := by
  have looked := m.host.poll_past
  have quiet := m.host.effects_looked
  rcases m.proceed_past find with none | ⟨d, e', as, g, rest, found, effect, has', quiet', some⟩
  · rw [past, looked] at none
    rw [← List.append_cancel_left none, effects_append, effects_cons_of_some has] at quiet
    simp at quiet
  · rw [past, looked, List.append_assoc, ← List.append_assoc _ _ (g :: rest)] at some
    have silent : effects (m.host.looked ++ as.map .action) = [] := by
      rw [effects_append, quiet, effects_actions]
      rfl
    obtain ⟨rfl, rfl⟩ := split_unique (List.append_cancel_left some).symm silent quiet' has
    obtain rfl := Option.some.inj (has.symm.trans has')
    exact ⟨d, as, found, effect, by simp [looked]⟩

theorem effect?_of_round {v : View} {condition body : Tree Node} {d : Deed}
    (found : round v condition body = .ok d) : d.effect? = none := by
  obtain ⟨b, value, done⟩ := ok_of_bind found
  cases done
  rfl

/-- Only the visit of a command has an effect. -/
theorem step_effect (m : Machine (Timeline τ)) {early late : List Happening} {h : Happening}
    {e : Effect} (has : h.effect? = some e)
    (past : m.step.machine.host.past = m.host.past ++ (early ++ h :: late)) :
    m.Enters (m.host.past ++ early) e := by
  obtain ⟨tasks, globals, frames, procedures, host⟩ := m
  have still (same : host.past = host.past ++ (early ++ h :: late)) : False := by
    simp at same
  cases tasks with
  | nil => exact (still past).elim
  | cons task tasks =>
    let rest : Machine (Timeline τ) := ⟨tasks, globals, frames, procedures, host⟩
    cases task with
    | visit c =>
      obtain ⟨d, as, found, effect, since⟩ := rest.proceed_effect has past
      exact ⟨c, tasks, d, as, rfl, found, effect, since⟩
    | times count => cases count <;> exact (still past).elim
    | loop =>
      obtain ⟨d, as, found, effect, -⟩ := rest.proceed_effect has past
      rw [effect?_of_round found] at effect
      cases effect
    | leave => exact (still past).elim

theorem past_steps (m : Machine (Timeline τ)) (n : Nat) :
    ∃ hs, (m.steps n).machine.host.past = m.host.past ++ hs := by
  obtain ⟨hs, _, past, -⟩ := m.steps_reaches .free n
  exact ⟨hs, past⟩

/-- Every effect of a run goes back to a look at the switches that the same command has made. -/
theorem steps_effect (m : Machine (Timeline τ)) (n : Nat) {early late : List Happening}
    {h : Happening} {e : Effect} (has : h.effect? = some e)
    (past : (m.steps n).machine.host.past = m.host.past ++ (early ++ h :: late)) :
    ∃ i k, m.steps i = .going k ∧ k.Enters (m.host.past ++ early) e := by
  induction n generalizing m early with
  | zero => simp [steps, Progress.machine] at past
  | succ n ih =>
    unfold steps at past
    cases step : m.step with
    | ended o k =>
      rw [step] at past
      exact ⟨0, m, rfl, m.step_effect has (by rw [step]; exact past)⟩
    | going k =>
      rw [step] at past
      obtain ⟨hs, -, now, -⟩ := m.step_reaches .free
      rw [step] at now
      change k.host.past = _ at now
      obtain ⟨ks, rest⟩ := k.past_steps n
      have parts : hs ++ ks = early ++ h :: late := by
        have whole := rest.symm.trans past
        rw [now, List.append_assoc] at whole
        exact List.append_cancel_left whole
      have further (more : List Happening) (found : ks = more ++ h :: late)
          (longer : early = hs ++ more) :
          ∃ i k, m.steps i = .going k ∧ k.Enters (m.host.past ++ early) e := by
        rw [found] at rest
        obtain ⟨i, l, reached, enters⟩ := ih k rest
        refine ⟨i + 1, l, by simp only [steps, step, reached], ?_⟩
        rw [longer, ← List.append_assoc, ← now]
        exact enters
      -- the effect belongs to this step or to a later one
      rcases List.append_eq_append_iff.mp parts with ⟨more, longer, found⟩ | ⟨more, longer, found⟩
      · exact further more found longer
      · cases more with
        | nil => exact further [] found.symm (by simpa using longer.symm)
        | cons g more =>
          obtain ⟨rfl, -⟩ := List.cons.inj found
          rw [longer] at now
          exact ⟨0, m, rfl, m.step_effect has (by rw [step]; exact now)⟩

theorem run_effect (m : Machine (Timeline τ)) (t : Tree Node) (limit : Nat)
    {early late : List Happening} {h : Happening} {e : Effect} (fresh : m.host.past = [])
    (has : h.effect? = some e)
    (past : (m.run limit t).machine.host.past = early ++ h :: late) :
    ∃ i k, (m.start t).steps i = .going k ∧ k.Enters early e := by
  have ran : (m.run limit t).machine.host = ((m.start t).steps limit).machine.host := by
    unfold run
    cases (m.start t).steps limit <;> rfl
  have quiet : effects (m.start t).host.past = [] := by
    rw [start_past, fresh, List.nil_append, effects_append, effects_actions]
    rfl
  obtain ⟨hs, steps⟩ := (m.start t).past_steps limit
  obtain ⟨more, rfl, found⟩ := split_of_quiet (steps.symm.trans (ran ▸ past)) quiet has
  rw [found] at steps
  exact (m.start t).steps_effect limit has steps

/-- If the run has not looked since a stop, it looked before the stop. -/
theorem Enters.before {k : Machine (Timeline τ)} {before early : List Happening} {a : Pace.Action}
    {e : Effect} (enters : k.Enters (before ++ .action a :: early) e)
    (unseen : ∀ q, .look q ∉ early) : k.Enters before e := by
  obtain ⟨c, tasks, d, as, visit, found, effect, since⟩ := enters
  suffices ∃ bs : List Pace.Action, before = (Host.poll k.host).2.past ++ bs.map .action by
    obtain ⟨bs, since⟩ := this
    exact ⟨c, tasks, d, bs, visit, found, effect, since⟩
  rcases List.append_eq_append_iff.mp since with ⟨more, looked, rest⟩ | ⟨more, looked, rest⟩
  · have last := k.host.poll_past
    rw [looked, Timeline.looked, ← List.append_assoc] at last
    rcases List.eq_nil_or_concat more with rfl | ⟨more, g, rfl⟩
    · exact ⟨[], by simp [looked]⟩
    · rw [List.concat_eq_append, ← List.append_assoc] at last
      obtain ⟨-, same⟩ := List.append_inj' last rfl
      obtain rfl := List.singleton_inj.mp same
      cases more with
      | nil => cases rest
      | cons g more =>
        obtain ⟨-, rfl⟩ := List.cons.inj rest
        exact absurd (by simp) (unseen k.host.turn.pace)
  · obtain ⟨bs, -, -, rfl, -⟩ := List.map_eq_append_iff.mp rest
    exact ⟨bs, looked⟩

structure StopsAtOnce (m : Machine (Timeline τ)) (p : Progress (Timeline τ))
    (before after : List Happening) : Prop where
  once : (effects after).length ≤ 1
  /-- the stop falls between the look that was made for a command and the effect of that command -/
  entered : ∀ e ∈ effects after, ∃ n k, m.steps n = .going k ∧ k.Enters before e
  /-- while the turtle obeys and while the run waits, a stop lets nothing more through -/
  busy : Busy before → effects after = [] ∧ ∃ k, p = .ended .stopped k
  /-- the next look ends the run -/
  seen : ∀ early q late, after = early ++ .look q :: late →
    (∃ k, p = .ended .stopped k) ∧ ∃ as : List Pace.Action, late = as.map .action
  /-- a run that ends in another way does not look any more -/
  unseen : ∀ o k, p = .ended o k → o ≠ .stopped → ∀ q, .look q ∉ after
  awake : ∀ k, p ≠ .ended .held k

/-- `later` is what a controller does after the last thing that the run does. -/
theorem run_stopsAtOnce (m : Machine (Timeline τ)) (t : Tree Node) (limit : Nat)
    {later : List Pace.Action} {before after : List Happening} (fresh : m.host.past = [])
    (soon : later <+: (m.run limit t).machine.host.toCome)
    (stop : (m.run limit t).machine.host.past ++ later.map .action =
      before ++ .action .stop :: after) (stands : .action .reset ∉ after) :
    StopsAtOnce (m.start t) (m.run limit t) before after := by
  obtain ⟨hs, s, past, path, standing⟩ := m.run_reaches t limit
  rw [fresh, List.nil_append] at past
  -- a controller may go on when the run is over, so what it does then is still on the path
  have whole := path.append (.actions later)
  rw [← past, stop] at whole
  obtain ⟨s₁, earlier, rest⟩ := whole.split
  have rest := rest.after_action
  have on : (s₁.pace.act .stop).stopped = true := rfl
  obtain ⟨stopped, unreleased⟩ := rest.stopped_of_stopped on stands
  have awake (k : Machine (Timeline τ)) : m.run limit t ≠ .ended .held k := by
    intro held
    rw [held] at standing soon
    obtain ⟨still, alone⟩ := standing.of_held
    have none : k.host.toCome = [] := by simp [Timeline.toCome, alone]
    obtain rfl := List.prefix_nil.mp (none ▸ soon)
    cases still.symm.trans stopped
  have seen (early : List Happening) (q : Pace) (late : List Happening)
      (split : after = early ++ .look q :: late) :
      (∃ k, m.run limit t = .ended .stopped k) ∧
        ∃ as : List Pace.Action, late = as.map .action := by
    rw [split] at rest stands
    obtain ⟨halted, actions⟩ := rest.quiet_after_look on stands
    exact ⟨standing.stopped_of_busy (by rw [halted]; rintro ⟨⟩) awake, actions⟩
  refine ⟨?_, ?_, fun busy => ?_, seen, ?_, awake⟩
  · have few := rest.effects_of_stopped on stands
    split at few <;> omega
  · intro e member
    obtain ⟨early, h, late, split, has⟩ := exists_of_mem_effects member
    rw [split] at rest stands
    rw [split, ← List.cons_append, ← List.append_assoc] at stop
    obtain ⟨late', ran, -⟩ := split_of_effects_nil stop (effects_actions _) has
    obtain ⟨i, k, reached, enters⟩ := m.run_effect t limit fresh has ran
    exact ⟨i, k, reached, enters.before (rest.unseen_before_effect on stands has)⟩
  · have through := earlier.busy_of_told busy
    obtain ⟨busy, none⟩ := rest.busy_until_released through unreleased
    exact ⟨none, standing.stopped_of_busy busy awake⟩
  · intro o k run other q looked
    obtain ⟨early, late, split⟩ := List.append_of_mem looked
    obtain ⟨⟨k', stops⟩, -⟩ := seen early q late split
    rw [run] at stops
    cases stops
    exact other rfl

/-- The stop comes when the run has looked for the first command. The turtle is still told to lift
the pen, and never to go home. -/
theorem run_stopsAtOnce_within_command :
    let program : Tree Node := .node (.ofGroup .block)
      [.node (.ofToken ⟨.keyword, "penup"⟩) [], .node (.ofToken ⟨.keyword, "home"⟩) []]
    let nothing : Pace.Moment := ⟨[], false⟩
    let m : Machine (Timeline Sketch) := .new (.new .blank (.new Pace.fastest false)
      [nothing, nothing, nothing, ⟨[.stop], false⟩])
    let on : Pace := ⟨false, false, Pace.fastest⟩
    let off : Pace := ⟨false, true, Pace.fastest⟩
    let after : List Happening := [.told .penUp, .obeyed .penUp, .look off]
    m.host.past = [] ∧ [] <+: (m.run 9 program).machine.host.toCome ∧
      (m.run 9 program).machine.host.past ++ [] =
        [.action .reset, .look on, .look on] ++ .action .stop :: after ∧
          .action .reset ∉ after ∧ StopsAtOnce (m.start program) (m.run 9 program)
            [.action .reset, .look on, .look on] after := by
  intro program nothing m on off after
  have fresh : m.host.past = [] := rfl
  have soon : [] <+: (m.run 9 program).machine.host.toCome := List.nil_prefix
  have stop : (m.run 9 program).machine.host.past ++ [].map .action =
      [.action .reset, .look on, .look on] ++ .action .stop :: after := rfl
  have stands : .action .reset ∉ after := by simp [after]
  exact ⟨fresh, soon, stop, stands, run_stopsAtOnce m program 9 fresh soon stop stands⟩

end Machine

end TurtleGraphics
