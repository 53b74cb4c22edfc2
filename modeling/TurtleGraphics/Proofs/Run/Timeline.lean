import TurtleGraphics.Proofs.Run.Log
import TurtleGraphics.Proofs.Run.Step

/-!
A run and a controller on one timeline. The controller gets its turn before everything that the run
does, and also while the turtle obeys and while the run waits. What happens is noted in order, and
it keeps to a simple pattern: the run looks at the switches before every effect, waits after every
order, and does nothing more once it has seen that it is stopped.
-/

namespace TurtleGraphics

inductive Happening
  /-- a controller does something to the switches -/
  | action (a : Pace.Action)
  /-- the run looks at the switches and finds them like this -/
  | look (p : Pace)
  /-- the turtle is told what to do -/
  | told (o : Order)
  /-- the turtle has done it, and the run begins to wait -/
  | obeyed (o : Order)
  /-- the run has waited long enough -/
  | released
  | stored (name : String) (value : Float)

namespace Happening

def effect? : Happening → Option Effect
  | told o => some (.order o)
  | stored name x => some (.store name x)
  | _ => none

def effects (hs : List Happening) : List Effect :=
  hs.filterMap effect?

def switches (p : Pace) : List Happening → Pace
  | [] => p
  | action a :: hs => switches (p.act a) hs
  | _ :: hs => switches p hs

@[simp] theorem effects_append (hs ks : List Happening) :
    effects (hs ++ ks) = effects hs ++ effects ks :=
  List.filterMap_append

@[simp] theorem effects_actions (as : List Pace.Action) : effects (as.map action) = [] := by
  induction as with
  | nil => rfl
  | cons a as ih => exact ih

end Happening

structure Timeline (τ : Type) where
  turtle : τ
  pace : Pace
  coming : List Pace.Moment
  past : List Happening

namespace Timeline

variable {τ : Type}

def new (turtle : τ) (pace : Pace) (coming : List Pace.Moment) : Timeline τ :=
  ⟨turtle, pace, coming, []⟩

def note (l : Timeline τ) (hs : List Happening) : Timeline τ :=
  { l with past := l.past ++ hs }

def toCome (l : Timeline τ) : List Pace.Action :=
  l.coming.flatMap (·.actions)

def due (ms : List Pace.Moment) : List Pace.Action :=
  ms.head?.elim [] (·.actions)

def turn (l : Timeline τ) : Timeline τ :=
  let (pace, coming) := l.pace.look l.coming
  { l with pace, coming, past := l.past ++ (due l.coming).map .action }

/-- The run looks again after each turn of the controller. -/
def wakes (p : Pace) : List Pace.Moment → List Happening
  | [] => []
  | m :: ms =>
    let p := p.actAll m.actions
    m.actions.map .action ++ .look p :: wakes p ms

def looked (l : Timeline τ) : List Happening :=
  (due l.coming).map .action ++ [.look l.turn.pace]

/-- What happens while the run has an effect. The controller gets its turn also while the turtle
obeys. -/
def performed (l : Timeline τ) : Effect → List Happening
  | .order o =>
    (due l.coming).map .action ++ .told o :: ((due l.turn.coming).map .action ++ [.obeyed o])
  | .store name x => (due l.coming).map .action ++ [.stored name x]

/-- What happens while the run waits. The turns that the controller has had by then are those that
are no longer to come. -/
def waited (l : Timeline τ) : List Happening :=
  let seen := l.turn
  let (settled, _, coming) := l.pace.settle l.coming
  let used := seen.coming.take (seen.coming.length - coming.length)
  (due l.coming).map .action ++
    .look seen.pace :: (wakes seen.pace used ++ if settled = .go then [.released] else [])

def settle (l : Timeline τ) : Pace.Settled × Timeline τ :=
  let (settled, pace, coming) := l.pace.settle l.coming
  (settled, { l with pace, coming }.note l.waited)

instance [Turtle τ] : Host (Timeline τ) where
  x l := Turtle.x l.turtle
  y l := Turtle.y l.turtle
  perform
    | .order o, l =>
      let l := l.turn.note [.told o]
      { l with turtle := Turtle.obey o l.turtle }.turn.note [.obeyed o]
    | .store name x, l => l.turn.note [.stored name x]
  start l :=
    let l := l.turn
    { l with pace := l.pace.act .reset }.note [.action .reset]
  poll l :=
    let l := l.turn
    (l.pace.stopped, l.note [.look l.pace])
  settle l := l.settle

end Timeline

inductive Phase
  /-- between two looks at the switches, with nothing under way -/
  | free
  /-- it has looked and may have one effect -/
  | entered
  | obeying (o : Order)
  | waiting
  | halted
deriving DecidableEq

inductive Phase.Idle : Phase → Prop
  | free : Idle .free
  | entered : Idle .entered

structure Standing where
  pace : Pace
  phase : Phase

inductive Leads : Standing → Happening → Standing → Prop
  | action {p : Pace} {phase : Phase} (a : Pace.Action) :
    Leads ⟨p, phase⟩ (.action a) ⟨p.act a, phase⟩
  | enter {p : Pace} {phase : Phase} (idle : phase.Idle) (on : p.stopped = false) :
    Leads ⟨p, phase⟩ (.look p) ⟨p, .entered⟩
  | tell {p : Pace} (o : Order) : Leads ⟨p, .entered⟩ (.told o) ⟨p, .obeying o⟩
  | obey {p : Pace} (o : Order) : Leads ⟨p, .obeying o⟩ (.obeyed o) ⟨p, .waiting⟩
  | wake {p : Pace} (on : p.stopped = false) : Leads ⟨p, .waiting⟩ (.look p) ⟨p, .waiting⟩
  | release {p : Pace} (on : p.stopped = false) (go : p.holds = false) :
    Leads ⟨p, .waiting⟩ .released ⟨p, .free⟩
  | store {p : Pace} (name : String) (x : Float) :
    Leads ⟨p, .entered⟩ (.stored name x) ⟨p, .free⟩
  | stop {p : Pace} {phase : Phase} (looks : phase.Idle ∨ phase = .waiting)
    (stopped : p.stopped = true) : Leads ⟨p, phase⟩ (.look p) ⟨p, .halted⟩

inductive Path : Standing → List Happening → Standing → Prop
  | nil {s : Standing} : Path s [] s
  | cons {s s' s'' : Standing} {h : Happening} {hs : List Happening} (first : Leads s h s')
    (rest : Path s' hs s'') : Path s (h :: hs) s''

namespace Path

variable {s s' s'' : Standing} {hs ks : List Happening}

theorem single {h : Happening} (lead : Leads s h s') : Path s [h] s' :=
  .cons lead .nil

theorem append (first : Path s hs s') (rest : Path s' ks s'') : Path s (hs ++ ks) s'' := by
  induction first with
  | nil => exact rest
  | cons lead _ ih => exact .cons lead (ih rest)

theorem split (path : Path s (hs ++ ks) s'') : ∃ s', Path s hs s' ∧ Path s' ks s'' := by
  induction hs generalizing s with
  | nil => exact ⟨s, .nil, path⟩
  | cons h hs ih =>
    cases path with
    | cons lead rest =>
      obtain ⟨s', first, last⟩ := ih rest
      exact ⟨s', .cons lead first, last⟩

theorem after_action {a : Pace.Action} (path : Path s (.action a :: hs) s') :
    Path ⟨s.pace.act a, s.phase⟩ hs s' := by
  cases path with
  | cons lead rest =>
    cases lead with
    | action => exact rest

/-- The switches are as the actions have left them. -/
theorem pace_eq (path : Path s hs s') : s'.pace = Happening.switches s.pace hs := by
  induction path with
  | nil => rfl
  | cons lead _ ih =>
    rw [ih]
    cases lead <;> rfl

theorem actions {p : Pace} {phase : Phase} (as : List Pace.Action) :
    Path ⟨p, phase⟩ (as.map .action) ⟨p.actAll as, phase⟩ := by
  induction as generalizing p with
  | nil => exact .nil
  | cons a as ih => exact .cons (.action a) ih

/-- Once the run is over only a controller still does something. -/
theorem of_halted (path : Path s hs s') (halted : s.phase = .halted) :
    s'.phase = .halted ∧ ∃ as : List Pace.Action, hs = as.map .action := by
  induction path with
  | nil => exact ⟨halted, [], rfl⟩
  | cons lead _ ih =>
    cases lead with
    | action a =>
      obtain ⟨halted, as, rfl⟩ := ih halted
      exact ⟨halted, a :: as, rfl⟩
    | enter idle => cases idle <;> cases halted
    | stop looks => rcases looks with (_ | _) | rfl <;> cases halted
    | tell | obey | wake | release | store => cases halted

end Path

def Effect.phase : Effect → Phase
  | .order _ => .waiting
  | .store .. => .free

def Pace.Settled.phase : Pace.Settled → Phase
  | .go => .free
  | .stop => .halted
  | .held => .waiting

inductive Stands {τ : Type} : Progress (Timeline τ) → Standing → Prop
  | going {m : Machine (Timeline τ)} {s : Standing} (pace : s.pace = m.host.pace)
    (idle : s.phase.Idle) : Stands (.going m) s
  | stopped {m : Machine (Timeline τ)} {s : Standing} (halted : s.phase = .halted) :
    Stands (.ended .stopped m) s
  | held {m : Machine (Timeline τ)} {s : Standing} (waits : s.phase = .waiting)
    (on : s.pace.stopped = false) (alone : m.host.coming = []) : Stands (.ended .held m) s
  | ended {o : Outcome} {m : Machine (Timeline τ)} {s : Standing} (unstopped : o ≠ .stopped)
    (released : o ≠ .held) (idle : s.phase.Idle) : Stands (.ended o m) s

theorem Stands.of_held {τ : Type} {m : Machine (Timeline τ)} {s : Standing}
    (stands : Stands (.ended .held m) s) : s.pace.stopped = false ∧ m.host.coming = [] := by
  cases stands with
  | held _ on alone => exact ⟨on, alone⟩
  | ended _ released => exact absurd rfl released

/-- A run that breaks off while something is under way is stopped, or held for ever. -/
theorem Stands.stopped_of_busy {τ : Type} {p : Progress (Timeline τ)} {s : Standing}
    (stands : Stands p s) (busy : ¬ s.phase.Idle) (awake : ∀ m, p ≠ .ended .held m) :
    ∃ m, p = .ended .stopped m := by
  cases stands with
  | going _ idle | ended _ _ idle => exact absurd idle busy
  | stopped => exact ⟨_, rfl⟩
  | held => exact absurd rfl (awake _)

/-- From the standing the run has got to where it is by way of the pattern. -/
def Reaches {τ : Type} (past : List Happening) (s : Standing) (p : Progress (Timeline τ)) : Prop :=
  ∃ hs s', p.machine.host.past = past ++ hs ∧ Path s hs s' ∧ Stands p s'

theorem Reaches.later {τ : Type} {past hs : List Happening} {s s' : Standing}
    {p : Progress (Timeline τ)} (path : Path s hs s') (reaches : Reaches (past ++ hs) s' p) :
    Reaches past s p := by
  obtain ⟨ks, s'', same, rest, stands⟩ := reaches
  exact ⟨hs ++ ks, s'', by rw [same, List.append_assoc], path.append rest, stands⟩

namespace Pace

theorem look_eq (p : Pace) (ms : List Moment) :
    p.look ms = (p.actAll (Timeline.due ms), ms.tail) := by
  cases ms <;> rfl

def seen (p : Pace) : Standing :=
  ⟨p, if p.stopped then .halted else .waiting⟩

theorem leads_seen (p : Pace) : Leads ⟨p, .waiting⟩ (.look p) p.seen := by
  unfold seen
  split
  · rename_i stopped
    exact .stop (.inr rfl) stopped
  · rename_i on
    exact .wake (by simpa using on)

/-- Some turns of the controller are used up, and what happens in them leads to the end of
waiting. -/
def Waits (p : Pace) (ms : List Moment) (r : Settled × Pace × List Moment) : Prop :=
  (∃ used, ms = used ++ r.2.2 ∧
    Path p.seen (Timeline.wakes p used ++ if r.1 = .go then [.released] else [])
      ⟨r.2.1, r.1.phase⟩) ∧ (r.1 = .held → r.2.1.stopped = false ∧ r.2.2 = [])

theorem Waits.later {p : Pace} {m : Moment} {ms : List Moment} {r : Settled × Pace × List Moment}
    (on : p.stopped = false) (waits : (p.actAll m.actions).Waits ms r) : p.Waits (m :: ms) r := by
  obtain ⟨⟨used, same, path⟩, held⟩ := waits
  refine ⟨⟨m :: used, by rw [same, List.cons_append], ?_⟩, held⟩
  have turn : Path p.seen (m.actions.map .action) ⟨p.actAll m.actions, .waiting⟩ := by
    rw [seen, on]
    exact .actions _
  have woken := turn.append ((Path.single (leads_seen _)).append path)
  simpa [Timeline.wakes] using woken

theorem waits_of_stopped {p : Pace} (stopped : p.stopped = true) (ms : List Moment) :
    p.Waits ms (.stop, p, ms) := by
  refine ⟨⟨[], rfl, ?_⟩, by simp⟩
  rw [seen, stopped]
  exact .nil

theorem waits_of_free {p : Pace} (on : p.stopped = false) (go : p.holds = false)
    (ms : List Moment) : p.Waits ms (.go, p, ms) := by
  refine ⟨⟨[], rfl, ?_⟩, by simp⟩
  rw [seen, on]
  exact .single (.release on go)

theorem waits_of_held {p : Pace} (on : p.stopped = false) : p.Waits [] (.held, p, []) := by
  refine ⟨⟨[], rfl, ?_⟩, fun _ => ⟨on, rfl⟩⟩
  rw [seen, on]
  exact .nil

theorem wait_waits (p : Pace) (ms : List Moment) : p.Waits ms (p.wait ms) := by
  induction ms generalizing p with
  | nil =>
    unfold wait
    split
    · rename_i stopped
      exact waits_of_stopped stopped []
    · rename_i on
      split
      · rename_i go
        exact waits_of_free (by simpa using on) (by simpa using go) []
      · exact waits_of_held (by simpa using on)
  | cons m ms ih =>
    unfold wait
    split
    · rename_i stopped
      exact waits_of_stopped stopped _
    · rename_i on
      split
      · rename_i go
        exact waits_of_free (by simpa using on) (by simpa using go) _
      · exact .later (by simpa using on) (ih _)

theorem delay_waits (p : Pace) (ms : List Moment) : p.Waits ms (p.delay ms) := by
  induction ms generalizing p with
  | nil =>
    unfold delay
    split
    · rename_i stopped
      exact waits_of_stopped stopped []
    · exact wait_waits p []
  | cons m ms ih =>
    unfold delay
    split
    · rename_i stopped
      exact waits_of_stopped stopped _
    · rename_i on
      have on : p.stopped = false := by simpa using on
      dsimp only
      split
      · exact .later on (wait_waits _ ms)
      · exact .later on (ih _)

theorem settle_waits (p : Pace) (ms : List Moment) :
    (p.look ms).1.Waits (p.look ms).2 (p.settle ms) := by
  unfold settle
  dsimp only
  split
  · exact delay_waits _ _
  · exact wait_waits _ _

end Pace

section Run

open Happening

variable {τ : Type}

namespace Timeline

theorem turn_past (l : Timeline τ) : l.turn.past = l.past ++ (due l.coming).map .action :=
  rfl

theorem turn_path (l : Timeline τ) (phase : Phase) :
    Path ⟨l.pace, phase⟩ ((due l.coming).map .action) ⟨l.turn.pace, phase⟩ := by
  have pace : l.turn.pace = l.pace.actAll (due l.coming) := by simp [turn, Pace.look_eq]
  rw [pace]
  exact .actions _

theorem poll_past [Turtle τ] (l : Timeline τ) : (Host.poll l).2.past = l.past ++ l.looked := by
  simp [Host.poll, note, looked, turn_past]

theorem perform_past [Turtle τ] (l : Timeline τ) (e : Effect) :
    (Host.perform e l).past = l.past ++ l.performed e := by
  cases e <;> simp [Host.perform, performed, note, turn]

theorem performed_path [Turtle τ] (l : Timeline τ) (e : Effect) :
    Path ⟨l.pace, .entered⟩ (l.performed e) ⟨(Host.perform e l).pace, e.phase⟩ := by
  cases e with
  | order o =>
    have first := (l.turn_path .entered).append (.single (.tell o))
    have second := (l.turn.turn_path (.obeying o)).append (.single (.obey o))
    have whole := first.append second
    rw [List.append_assoc] at whole
    exact whole
  | store name x => exact (l.turn_path .entered).append (.single (.store name x))

/-- What happens while the run waits leads to the way in which waiting ends. -/
theorem waited_path (l : Timeline τ) :
    Path ⟨l.pace, .waiting⟩ l.waited ⟨l.settle.2.pace, l.settle.1.phase⟩ ∧
      (l.settle.1 = .held → l.settle.2.pace.stopped = false ∧ l.settle.2.coming = []) := by
  obtain ⟨⟨used, same, path⟩, held⟩ := Pace.settle_waits l.pace l.coming
  refine ⟨?_, held⟩
  have turned : l.turn.coming = used ++ (l.pace.settle l.coming).2.2 := same
  have looked : Path ⟨l.turn.pace, .waiting⟩ [.look l.turn.pace] l.turn.pace.seen :=
    .single (Pace.leads_seen _)
  have waited : l.waited = (due l.coming).map .action ++ ([.look l.turn.pace] ++
      (wakes l.turn.pace used ++ if l.settle.1 = .go then [.released] else [])) := by
    simp [waited, settle, turned]
  rw [waited]
  exact (l.turn_path .waiting).append (looked.append path)

end Timeline

namespace Machine

variable [Turtle τ]

theorem settle_reaches (m : Machine (Timeline τ)) :
    Reaches m.host.past ⟨m.host.pace, .waiting⟩ m.settle := by
  obtain ⟨path, held⟩ := m.host.waited_path
  have now : Host.settle m.host = (m.host.settle.1, m.host.settle.2) := rfl
  unfold settle
  rw [now]
  cases ends : m.host.settle.1 with
  | go => exact ⟨_, _, rfl, path, .going rfl (by rw [ends]; exact .free)⟩
  | stop => exact ⟨_, _, rfl, path, .stopped (by rw [ends]; rfl)⟩
  | held =>
    obtain ⟨on, alone⟩ := held ends
    exact ⟨_, _, rfl, path, .held (by rw [ends]; rfl) on alone⟩

theorem carryOut_reaches (m : Machine (Timeline τ)) (d : Deed) :
    Reaches m.host.past ⟨m.host.pace, .entered⟩ (m.carryOut d) := by
  cases d with
  | order o =>
    apply Reaches.later (m.host.performed_path (.order o))
    rw [← Timeline.perform_past]
    exact (m.perform (.order o)).settle_reaches
  | store name x =>
    have now : ((m.store name x).perform (.store name x)).host =
        Host.perform (.store name x) m.host := by
      rw [← store_host m name x]
      rfl
    refine ⟨_, _, ?_, m.host.performed_path (.store name x), .going ?_ .free⟩
    · rw [← Timeline.perform_past, ← now]
      rfl
    · rw [now]
  | push | define | call => exact ⟨[], _, by simp [carryOut, Progress.machine, todo], .nil,
      .going rfl .entered⟩

theorem attempt_reaches (m : Machine (Timeline τ))
    (find : Bindings (Tree Node) → View → Except RuntimeError Deed) :
    Reaches m.host.past ⟨m.host.pace, .entered⟩ (m.attempt find) := by
  unfold attempt
  split
  · exact m.carryOut_reaches _
  · exact ⟨[], _, by simp [Progress.machine], .nil, .ended (by simp) (by simp) .entered⟩

theorem proceed_reaches (m : Machine (Timeline τ)) {phase : Phase} (idle : phase.Idle)
    (find : Bindings (Tree Node) → View → Except RuntimeError Deed) :
    Reaches m.host.past ⟨m.host.pace, phase⟩ (m.proceed find) := by
  have turned := m.host.turn_path phase
  have past := m.host.poll_past
  have polled : Host.poll m.host =
    (m.host.turn.pace.stopped, m.host.turn.note [.look m.host.turn.pace]) := rfl
  unfold proceed
  rw [polled] at past ⊢
  cases stopped : m.host.turn.pace.stopped with
  | true => exact ⟨_, _, past, turned.append (.single (.stop (.inl idle) stopped)), .stopped rfl⟩
  | false =>
    apply Reaches.later (turned.append (.single (.enter idle stopped)))
    change Reaches (m.host.past ++ m.host.looked) _ _
    rw [← past]
    exact attempt_reaches { m with host := m.host.turn.note [.look m.host.turn.pace] } find

theorem step_reaches (m : Machine (Timeline τ)) {phase : Phase} (idle : phase.Idle) :
    Reaches m.host.past ⟨m.host.pace, phase⟩ m.step := by
  obtain ⟨tasks, globals, frames, procedures, host⟩ := m
  have still {p : Progress (Timeline τ)} (same : p.machine.host = host)
      (stands : Stands p ⟨host.pace, phase⟩) : Reaches host.past ⟨host.pace, phase⟩ p :=
    ⟨[], _, by rw [same, List.append_nil], .nil, stands⟩
  cases tasks with
  | nil => exact still rfl (.ended (by simp) (by simp) idle)
  | cons task tasks =>
    let rest : Machine (Timeline τ) := ⟨tasks, globals, frames, procedures, host⟩
    cases task with
    | visit t => exact rest.proceed_reaches idle (deed · · t)
    | times count body => cases count <;> exact still rfl (.going rfl idle)
    | loop condition body => exact rest.proceed_reaches idle fun _ v => round v condition body
    | leave => exact still rfl (.going rfl idle)

theorem steps_reaches (m : Machine (Timeline τ)) {phase : Phase}
    (idle : phase.Idle) (n : Nat) :
    Reaches m.host.past ⟨m.host.pace, phase⟩ (m.steps n) := by
  induction n generalizing m phase with
  | zero => exact ⟨[], _, by simp [steps, Progress.machine], .nil, .going rfl idle⟩
  | succ n ih =>
    obtain ⟨hs, s, past, path, stands⟩ := m.step_reaches idle
    unfold steps
    cases e : m.step with
    | going k =>
      rw [e] at past stands
      cases stands with
      | going pace idle =>
        apply Reaches.later path
        obtain ⟨_, phase⟩ := s
        cases pace
        have further := ih k idle
        rw [show k.host.past = m.host.past ++ hs from past] at further
        exact further
    | ended o k =>
      rw [e] at past stands
      exact ⟨hs, s, past, path, stands⟩

theorem start_past (m : Machine (Timeline τ)) (t : Tree Node) :
    (m.start t).host.past =
      m.host.past ++ ((Timeline.due m.host.coming).map .action ++ [.action .reset]) := by
  simp [start, Host.start, Timeline.note, Timeline.turn_past]

theorem run_reaches (m : Machine (Timeline τ)) (t : Tree Node) (limit : Nat) :
    Reaches m.host.past ⟨m.host.pace, .free⟩ (m.run limit t) := by
  have started := (m.host.turn_path .free).append (.single (.action .reset))
  apply Reaches.later started
  obtain ⟨hs, s, past, path, stands⟩ := (m.start t).steps_reaches .free limit
  rw [start_past] at past
  unfold run
  cases ends : (m.start t).steps limit with
  | going k =>
    rw [ends] at past stands
    exact ⟨hs, s, past, path, stands⟩
  | ended o k =>
    rw [ends] at past stands
    refine ⟨hs, s, past, path, ?_⟩
    cases stands with
    | stopped halted => exact .stopped halted
    | held waits on alone => exact .held waits on alone
    | ended unstopped released idle => exact .ended unstopped released idle

end Machine

end Run

end TurtleGraphics
