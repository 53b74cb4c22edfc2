import TurtleGraphics.Proofs.Run.Call
import TurtleGraphics.Proofs.Run.Log
import TurtleGraphics.Proofs.Run.Renaming
import TurtleGraphics.Proofs.Run.Safety

/-!
Parameters are local. A program in which procedures have other names for their parameters runs step
by step like the program itself. The invariant pairs the tasks and frames of the two runs call by
call, each call with the renaming of the procedure that was called.
-/

namespace TurtleGraphics

open TurtleGraphics.Tree (IsProgram)

/-- The renaming of the innermost call. Outside all calls names are what they are. -/
def Renaming.current (rs : List Renaming) : Renaming :=
  rs.headD .none

inductive TasksAlike : List Renaming → List Task → List Task → Prop
  | nil : TasksAlike [] [] []
  | cons {rs : List Renaming} {task task' : Task} {tasks tasks' : List Task}
    (first : Task.Alike (.current rs) task task') (others : TasksAlike rs tasks tasks') :
    TasksAlike rs (task :: tasks) (task' :: tasks')
  | leave {r : Renaming} {rs : List Renaming} {tasks tasks' : List Task}
    (others : TasksAlike rs tasks tasks') :
    TasksAlike (r :: rs) (.leave :: tasks) (.leave :: tasks')

theorem TasksAlike.append {rs : List Renaming} {new new' tasks tasks' : List Task}
    (each : List.Forall₂ (Task.Alike (.current rs)) new new')
    (others : TasksAlike rs tasks tasks') :
    TasksAlike rs (new ++ tasks) (new' ++ tasks') := by
  induction each with
  | nil => exact others
  | cons first _ ih => exact .cons first ih

inductive FramesAlike : List Renaming → List (Bindings Float) → List (Bindings Float) → Prop
  | nil : FramesAlike [] [] []
  | cons {r : Renaming} {rs : List Renaming} {frame frame' : Bindings Float}
    {callers callers' : List (Bindings Float)} (matched : Counterpart r frame frame')
    (others : FramesAlike rs callers callers') :
    FramesAlike (r :: rs) (frame :: callers) (frame' :: callers')

variable {ω : Type}

structure Outside (ω : Type) where
  host : ω
  orders : List Order
  globals : Bindings Float

def Machine.outside (m : Machine (Logged ω)) : Outside ω :=
  ⟨m.host.host, m.host.orders, m.globals⟩

def Progress.outside : Progress (Logged ω) → Option Outcome × Outside ω
  | .going m => (none, m.outside)
  | .ended o m => (some o, m.outside)

structure Machine.Alike (rs : List Renaming) (m k : Machine (Logged ω)) : Prop where
  outside : k.outside = m.outside
  tasks : TasksAlike rs m.tasks k.tasks
  frames : FramesAlike rs m.frames k.frames
  procedures : RespeltAll m.procedures k.procedures

/-- The host takes no notice of changes to variables. -/
def Host.IgnoresStores (ω : Type) [Host ω] : Prop :=
  ∀ (name : String) (x : Float) (h : ω), Host.perform (.store name x) h = h

inductive Progress.Alike : Progress (Logged ω) → Progress (Logged ω) → Prop
  | going {rs : List Renaming} {m k : Machine (Logged ω)} (alike : m.Alike rs k) :
    Alike (.going m) (.going k)
  | ended (o : Outcome) {m k : Machine (Logged ω)} (same : k.outside = m.outside) :
    Alike (.ended o m) (.ended o k)

namespace Machine

variable {rs : List Renaming} {m k : Machine (Logged ω)}

theorem Alike.globals (alike : m.Alike rs k) : k.globals = m.globals :=
  congrArg Outside.globals alike.outside

theorem Alike.host (alike : m.Alike rs k) : k.host.host = m.host.host :=
  congrArg Outside.host alike.outside

theorem Alike.orders (alike : m.Alike rs k) : k.host.orders = m.host.orders :=
  congrArg Outside.orders alike.outside

theorem Alike.fetch (alike : m.Alike rs k) {x : String}
    (admitted : (Renaming.current rs).Admits x) :
    k.fetch ((Renaming.current rs).spell x) = m.fetch x ∧
      (m.fetch x = none → (Renaming.current rs).spell x = x) := by
  obtain ⟨tasks, globals, frames, procedures, host⟩ := m
  obtain ⟨tasks', globals', frames', procedures', host'⟩ := k
  obtain rfl : globals' = globals := alike.globals
  have framed : FramesAlike rs frames frames' := alike.frames
  cases framed with
  | nil => exact ⟨rfl, fun _ => rfl⟩
  | @cons r rs frame frame' callers callers' matched others =>
    change (frame'.get? (r.spell x)).or (globals'.get? (r.spell x)) =
        (frame.get? x).or (globals'.get? x) ∧
      ((frame.get? x).or (globals'.get? x) = none → r.spell x = x)
    rw [matched.mirrors x admitted]
    cases found : frame.get? x with
    | some v => simp
    | none =>
      have stays : r.spell x = x := matched.moved x admitted (by simp [Bindings.has, found])
      simp [stays]

theorem Alike.store (alike : m.Alike rs k) {name : String}
    (admitted : (Renaming.current rs).Admits name) (x : Float) :
    (m.store name x).Alike rs (k.store ((Renaming.current rs).spell name) x) := by
  obtain ⟨tasks, globals, frames, procedures, host⟩ := m
  obtain ⟨tasks', globals', frames', procedures', host'⟩ := k
  obtain rfl : globals' = globals := alike.globals
  have put (b : Bindings Float) : (⟨host'.host, host'.orders, b⟩ : Outside ω) =
      ⟨host.host, host.orders, b⟩ := by
    rw [alike.host, alike.orders]
  have framed : FramesAlike rs frames frames' := alike.frames
  cases framed with
  | nil => exact ⟨put _, alike.tasks, .nil, alike.procedures⟩
  | @cons r rs frame frame' callers callers' matched others =>
    have own : frame'.has (r.spell name) = frame.has name := matched.mirrors.has admitted
    have below := FramesAlike.cons (matched.put admitted x) others
    -- a variable that has another name is one of the call, so only one without asks for globals
    cases known : frame.has name with
    | true =>
      simp only [Machine.store, Renaming.current, List.headD, own, known, Bool.true_or, if_true]
      exact ⟨put _, alike.tasks, below, alike.procedures⟩
    | false =>
      have stays : r.spell name = name := matched.moved name admitted known
      rw [stays] at own below
      simp only [Machine.store, Renaming.current, List.headD, stays, own, known, Bool.false_or]
      split
      · exact ⟨put _, alike.tasks, below, alike.procedures⟩
      · exact ⟨put _, alike.tasks, .cons matched others, alike.procedures⟩

theorem Alike.onto (alike : m.Alike rs k) {l l' : Logged ω} (host : l'.host = l.host)
    (orders : l'.orders = l.orders) :
    ({ m with host := l } : Machine _).Alike rs { k with host := l' } := by
  refine ⟨?_, alike.tasks, alike.frames, alike.procedures⟩
  simp only [Machine.outside, host, orders, alike.globals]

theorem Alike.todo (alike : m.Alike rs k) {tasks tasks' : List Task}
    (each : List.Forall₂ (Task.Alike (.current rs)) tasks tasks') :
    (m.todo tasks).Alike rs (k.todo tasks') :=
  ⟨alike.outside, alike.tasks.append each, alike.frames, alike.procedures⟩

variable [Host ω]

theorem Alike.view (alike : m.Alike rs k) : View.Alike (.current rs) m.view k.view := by
  constructor
  · exact fun x admitted => (alike.fetch admitted).1
  · exact fun x admitted => (alike.fetch admitted).2
  · have same : Host.x k.host.host = Host.x m.host.host := congrArg _ alike.host
    exact same
  · have same : Host.y k.host.host = Host.y m.host.host := congrArg _ alike.host
    exact same

theorem settle_alike (alike : m.Alike rs k) : m.settle.Alike k.settle := by
  obtain ⟨tasks, globals, frames, procedures, h, effects⟩ := m
  obtain ⟨tasks', globals', frames', procedures', h', effects'⟩ := k
  obtain rfl : h' = h := alike.host
  have waited (log : List Effect) : Host.settle (⟨h', log⟩ : Logged ω) =
      ((Host.settle h').1, ⟨(Host.settle h').2, log⟩) := rfl
  have onward (later : ω) :
      (⟨tasks, globals, frames, procedures, ⟨later, effects⟩⟩ : Machine (Logged ω)).Alike rs
        ⟨tasks', globals', frames', procedures', ⟨later, effects'⟩⟩ :=
    alike.onto rfl alike.orders
  unfold settle
  rw [waited, waited]
  rcases Host.settle h' with ⟨_ | _ | _, later⟩
  · exact .going (onward later)
  · exact .ended _ (onward later).outside
  · exact .ended _ (onward later).outside

theorem carryOut_alike (ignores : Host.IgnoresStores ω) (alike : m.Alike rs k) {d d' : Deed}
    (same : Deed.Alike (.current rs) d d') : (m.carryOut d).Alike (k.carryOut d') := by
  cases same with
  | order o =>
    have host : (Host.perform (.order o) k.host).host = (Host.perform (.order o) m.host).host :=
      congrArg (Host.perform (.order o)) alike.host
    have orders : (Host.perform (.order o) k.host).orders =
        (Host.perform (.order o) m.host).orders := by
      rw [Logged.orders_order, Logged.orders_order, alike.orders]
    exact settle_alike (alike.onto host orders)
  | @store name admitted x =>
    have unseen (name : String) (l : Logged ω) :
        (Host.perform (.store name x) l).host = l.host := ignores name x l.host
    have stored := alike.store admitted x
    refine .going (stored.onto ?_ ?_)
    · rw [unseen, unseen]
      exact stored.host
    · rw [Logged.orders_store, Logged.orders_store]
      exact stored.orders
  | push each => exact .going (alike.todo each)
  | @define procedures procedures' block block' noted next =>
    have known : ({ m with procedures } : Machine (Logged ω)).Alike rs
        { k with procedures := procedures' } :=
      ⟨alike.outside, alike.tasks, alike.frames, noted⟩
    exact .going (known.todo (.cons next .nil))
  | @call frame frame' body body' entry =>
    cases entry with
    | @intro _ _ _ r matched shape covers =>
      have tasks : TasksAlike (r :: rs) (.visit body :: .leave :: m.tasks)
          (.visit (body.rename r.spell) :: .leave :: k.tasks) :=
        .cons (.visit shape covers) (.leave alike.tasks)
      exact .going ⟨alike.outside, tasks, .cons matched alike.frames, alike.procedures⟩

theorem attempt_alike (ignores : Host.IgnoresStores ω) (alike : m.Alike rs k)
    {find find' : Bindings (Tree Node) → View → Except RuntimeError Deed}
    (found : ∀ v w, View.Alike (.current rs) v w →
      Both (Deed.Alike (.current rs)) (find m.procedures v) (find' k.procedures w)) :
    (m.attempt find).Alike (k.attempt find') := by
  have now := found m.view k.view alike.view
  unfold attempt
  generalize find m.procedures m.view = d at now
  generalize find' k.procedures k.view = d' at now
  cases now with
  | ok same => exact carryOut_alike ignores alike same
  | error e => exact .ended _ alike.outside

theorem proceed_alike (ignores : Host.IgnoresStores ω) (alike : m.Alike rs k)
    {find find' : Bindings (Tree Node) → View → Except RuntimeError Deed}
    (found : ∀ v w, View.Alike (.current rs) v w →
      Both (Deed.Alike (.current rs)) (find m.procedures v) (find' k.procedures w)) :
    (m.proceed find).Alike (k.proceed find') := by
  obtain ⟨tasks, globals, frames, procedures, h, effects⟩ := m
  obtain ⟨tasks', globals', frames', procedures', h', effects'⟩ := k
  obtain rfl : h' = h := alike.host
  have polled (log : List Effect) : Host.poll (⟨h', log⟩ : Logged ω) =
      ((Host.poll h').1, ⟨(Host.poll h').2, log⟩) := rfl
  have onward (later : ω) :
      (⟨tasks, globals, frames, procedures, ⟨later, effects⟩⟩ : Machine (Logged ω)).Alike rs
        ⟨tasks', globals', frames', procedures', ⟨later, effects'⟩⟩ :=
    alike.onto rfl alike.orders
  unfold proceed
  rw [polled, polled]
  rcases Host.poll h' with ⟨_ | _, later⟩
  · exact attempt_alike ignores (onward later) found
  · exact .ended _ (onward later).outside

theorem step_alike (ignores : Host.IgnoresStores ω) (alike : m.Alike rs k) :
    m.step.Alike k.step := by
  obtain ⟨tasks, globals, frames, procedures, host⟩ := m
  obtain ⟨tasks', globals', frames', procedures', host'⟩ := k
  have paired : TasksAlike rs tasks tasks' := alike.tasks
  cases paired with
  | nil => exact .ended _ alike.outside
  | @cons _ task task' tasks tasks' first others =>
    have rest : (⟨tasks, globals, frames, procedures, host⟩ : Machine (Logged ω)).Alike rs
        ⟨tasks', globals', frames', procedures', host'⟩ :=
      ⟨alike.outside, others, alike.frames, alike.procedures⟩
    cases first with
    | visit shape covers =>
      exact proceed_alike ignores rest fun v w seen =>
        deed_alike alike.procedures seen shape covers
    | @times count body shape covers =>
      cases count with
      | zero => exact .going rest
      | succ count =>
        have again : TasksAlike rs (.visit body :: .times count body :: tasks) _ :=
          .cons (.visit shape covers) (.cons (.times shape covers) others)
        exact .going ⟨alike.outside, again, alike.frames, alike.procedures⟩
    | loop test seen shape covers =>
      exact proceed_alike ignores rest fun v w views => round_alike views test seen shape covers
  | @leave r rs tasks tasks' others =>
    have framed : FramesAlike (r :: rs) frames frames' := alike.frames
    cases framed with
    | cons matched callers =>
      exact .going ⟨alike.outside, others, callers, alike.procedures⟩

theorem steps_alike (ignores : Host.IgnoresStores ω) (alike : m.Alike rs k) (n : Nat) :
    (m.steps n).Alike (k.steps n) := by
  -- which calls are under way, and with them the renamings, changes from step to step
  induction n generalizing rs m k with
  | zero => exact .going alike
  | succ n ih =>
    have one := step_alike ignores alike
    unfold steps
    generalize m.step = p at one
    generalize k.step = q at one
    cases one with
    | going alike => exact ih alike
    | ended o same => exact .ended o same

theorem outside_run (limit : Nat) (m : Machine (Logged ω)) (t : Tree Node) :
    (m.run limit t).outside = ((m.start t).steps limit).outside := by
  unfold run
  cases (m.start t).steps limit with
  | going k => rfl
  | ended o k => rfl

end Machine

namespace Progress.Alike

variable {p q : Progress (Logged ω)}

theorem outside (same : p.Alike q) : q.outside = p.outside := by
  cases same with
  | going alike => exact congrArg (Prod.mk none) alike.outside
  | ended o same => exact congrArg (Prod.mk (some o)) same

theorem steps [Host ω] (ignores : Host.IgnoresStores ω) (same : p.Alike q) (n : Nat) :
    (p.steps n).Alike (q.steps n) := by
  cases same with
  | going alike => exact Machine.steps_alike ignores alike n
  | ended o same => exact .ended o same

end Progress.Alike

namespace Machine

variable [Host ω]

/-- Two programs that differ in the names of parameters only do the same, on any host. -/
theorem run_respelt (ignores : Host.IgnoresStores ω) {t t' : Tree Node}
    (program : RespeltProgram t t') (limit : Nat) (m : Machine (Logged ω)) :
    (m.run limit t').outside = (m.run limit t).outside := by
  rw [outside_run, outside_run]
  cases limit with
  | zero => rfl
  | succ n =>
    have bare : (⟨[], .empty, [], .empty, Host.start m.host⟩ : Machine (Logged ω)).Alike []
        ⟨[], .empty, [], .empty, Host.start m.host⟩ :=
      ⟨rfl, .nil, .nil, fun _ => .none⟩
    have one : (m.start t).step.Alike (m.start t').step :=
      proceed_alike ignores bare fun v w _ => program_alike (fun _ => .none) program
    rw [steps_succ, steps_succ]
    exact (one.steps ignores n).outside

end Machine

theorem Stage.ignoresStores {τ : Type} [Turtle τ] : Host.IgnoresStores (Stage τ) :=
  fun _ _ _ => rfl

theorem RespeltProgram.renameAt {t d : Tree Node} (shape : IsProgram t) {i : Nat}
    (defined : t.definitions[i]? = some d) {r : Renaming} (fits : r.Fits d) :
    RespeltProgram t (t.renameAt i r.spell) := by
  cases shape with
  | @program n block list kind commands procedures =>
    obtain ⟨list, ps⟩ := list
    exact .intro kind commands (Respelt.modify procedures defined fits)

theorem Renaming.replace_fits {d : Tree Node} {a z : String} (formal : a ∈ d.parameters)
    (fresh : z ∉ d.mentionsOfDefinition) : (replace a z).Fits d := by
  constructor
  · intro x mentioned same
    exact fresh (same ▸ mentioned)
  · intro x _ moved
    by_contra other
    have kept : x ≠ a := fun same => other (same ▸ formal)
    exact moved (if_neg kept)

namespace Program

/-- A parameter can have any other name that its procedure does not use. -/
theorem run_renameParameter [Host ω] (ignores : Host.IgnoresStores ω) {source : String}
    {p : Program} (accepted : parse source = .ok p) {i : Nat} {d : Tree Node}
    (defined : p.tree.definitions[i]? = some d) {a z : String} (formal : a ∈ d.parameters)
    (fresh : z ∉ d.mentionsOfDefinition) (limit : Nat) (m : Machine (Logged ω)) :
    (m.run limit (p.tree.renameAt i (Renaming.replace a z).spell)).outside =
      (p.run limit m).outside :=
  Machine.run_respelt ignores
    (.renameAt (parse_shape accepted) defined (Renaming.replace_fits formal fresh)) limit m

/-- The other name can be that of a global variable. -/
theorem run_renameParameter_to_global :
    ∃ p d, parse "set b 2\ndo f 1\ndef f a \x7b\nset a a + 1\nforward a\n\x7d" = .ok p ∧
      p.tree.definitions[0]? = some d ∧ "a" ∈ d.parameters ∧ "b" ∉ d.mentionsOfDefinition ∧
      Host.IgnoresStores (Stage Sketch) ∧
      let m : Machine (Logged (Stage Sketch)) :=
        .new ⟨.quiet .blank (.new Pace.fastest false), []⟩
      (m.run 99 (p.tree.renameAt 0 (Renaming.replace "a" "b").spell)).outside =
        (p.run 99 m).outside := by
  let close : Phrase.LineEnd := ⟨"\n", []⟩
  let sum : Phrase.Expression :=
    .signed none (.name "a") .nil (.cons .plus (.number "1") .nil .nil)
  let body : Phrase.Block := .braces close
    (.cons (.assign "a" sum close)
      (.cons (.move .forward (.signed none (.name "a") .nil .nil) close) .nil)) close
  let s : Phrase.Script :=
    ⟨[], .assign "b" (.signed none (.number "2") .nil .nil) close,
      [.call "f" [.signed none (.number "1") .nil .nil] close], [⟨"f", ["a"], body⟩]⟩
  have derived : Derives "set b 2\ndo f 1\ndef f a \x7b\nset a a + 1\nforward a\n\x7d" s := by
    refine ⟨by decide +kernel, ?_⟩
    simp [s, sum, body, close, Phrase.Script.Longest, Phrase.Command.Longest, Phrase.Block.Longest,
      Phrase.Commands.Longest, Phrase.LongestAllBefore, Phrase.Expression.LongestBefore,
      Phrase.Addends.Longest, Phrase.Factor.Longest, Phrase.Factors.Longest,
      Phrase.LineEnd.tokens, Phrase.startsSigned, Phrase.endOfLine, Phrase.mark]
  obtain ⟨p, accepted, tree⟩ := derived.parsed
  have defined : p.tree.definitions[0]? = some (Phrase.Procedure.tree ⟨"f", ["a"], body⟩) := by
    rw [tree]
    rfl
  have formal : "a" ∈ (Phrase.Procedure.tree ⟨"f", ["a"], body⟩).parameters := by decide
  have fresh : "b" ∉ (Phrase.Procedure.tree ⟨"f", ["a"], body⟩).mentionsOfDefinition := by decide
  exact ⟨p, _, accepted, defined, formal, fresh, Stage.ignoresStores,
    run_renameParameter Stage.ignoresStores accepted defined formal fresh 99 _⟩

end Program

end TurtleGraphics
