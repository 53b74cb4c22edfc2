import TurtleGraphics.Proofs.Run.Call
import TurtleGraphics.Proofs.Run.Definitions
import TurtleGraphics.Proofs.Run.Log
import TurtleGraphics.Proofs.Run.Safety

/-!
Which procedure a call means. During a run the table of procedures has the last definition of each
name and never changes, so every call means that definition, wherever the call and the definition
stand. A program with other definitions runs the same if each name has the same last definition.
-/

namespace TurtleGraphics

open TurtleGraphics.Tree (IsCondition IsCommand IsProcedure IsProgram)

inductive RuntimeError.OfValue : RuntimeError → Prop
  | undefinedVariable (name : String) : OfValue (.undefinedVariable name)
  | divisionByZero : OfValue .divisionByZero
  | malformedNode (node : String) (reason : Malformation) : OfValue (.malformedNode node reason)
  | invalidNumber (text : String) : OfValue (.invalidNumber text)

theorem literalValue_error {text : String} {e : RuntimeError} (h : literalValue text = .error e) :
    e.OfValue := by
  unfold literalValue at h
  dsimp only at h
  split at h
  · cases h
  · cases h
    exact .invalidNumber text

theorem View.evaluate_error (v : View) {t : Tree Node} {e : RuntimeError}
    (h : v.evaluate t = .error e) : e.OfValue := by
  fun_induction View.evaluate v t with
  | case1 => exact literalValue_error h
  | case2 | case4 | case5 => cases h
  | case3 =>
    cases h
    exact .undefinedVariable _
  | case6 _ _ _ operand => exact operand h
  | case7 _ _ _ operand => exact operand (error_of_map h)
  | case8 _ _ _ _ first second | case9 _ _ _ _ first second | case10 _ _ _ _ first second =>
    rcases error_of_bind h with left | ⟨x, _, rest⟩
    · exact first left
    · rcases error_of_bind rest with right | ⟨y, _, done⟩
      · exact second right
      · cases done
  | case11 _ _ _ _ first second =>
    rcases error_of_bind h with left | ⟨x, _, rest⟩
    · exact first left
    · rcases error_of_bind rest with right | ⟨y, _, last⟩
      · exact second right
      · dsimp only at last
        split at last
        · cases last
          exact .divisionByZero
        · cases last
  | case12 | case13 | case14 | case15 | case16 | case17 | case18 | case19 | case20 =>
    cases h
    exact .malformedNode _ _

theorem View.mapM_evaluate_error (v : View) {ts : List (Tree Node)} {e : RuntimeError}
    (h : ts.mapM v.evaluate = .error e) : e.OfValue := by
  induction ts with
  | nil => cases h
  | cons t ts ih =>
    rw [List.mapM_cons] at h
    rcases error_of_bind h with first | ⟨x, _, rest⟩
    · exact v.evaluate_error first
    · rcases error_of_bind rest with others | ⟨xs, _, done⟩
      · exact ih others
      · cases done

def Task.Commands : Task → Prop
  | .visit t => IsCommand t
  | .times _ body => IsCommand body
  | .loop condition body => IsCondition condition ∧ IsCommand body
  | .leave => True

def Deed.Commands : Deed → Prop
  | .order _ | .store .. => True
  | .push tasks => ∀ task ∈ tasks, task.Commands
  | .define .. => False
  | .call _ body => IsCommand body

theorem Task.Part.commands {t : Tree Node} {task : Task} (part : task.Part t) : task.Commands := by
  cases part with
  | visit _ shape => exact shape
  | times _ _ shape => exact shape
  | loop _ _ test shape => exact ⟨test, shape⟩

namespace Machine

variable {table : Bindings (Tree Node)}

theorem Comes.commands {v : View} {t : Tree Node} {d : Deed} (comes : Comes table v t d)
    (sorted : Sorted table) : d.Commands := by
  obtain ⟨n, ts⟩ := t
  cases comes with
  | order | store => trivial
  | push each => exact fun task member => (each task member).commands
  | call _ ready =>
    have ready : Ready table v ts _ _ := ready
    cases ready with
    | intro found => exact (sorted _ _ found).body

theorem commands_of_round {v : View} {condition body : Tree Node} (test : IsCondition condition)
    (shape : IsCommand body) {d : Deed} (found : round v condition body = .ok d) : d.Commands := by
  obtain ⟨b, _, done⟩ := ok_of_bind found
  cases done
  intro task member
  cases b with
  | false => simp at member
  | true =>
    simp only [if_true, List.mem_cons, List.not_mem_nil, or_false] at member
    rcases member with rfl | rfl
    · exact shape
    · exact ⟨test, shape⟩

variable {ω : Type}

structure Noted (table : Bindings (Tree Node)) (m : Machine ω) : Prop where
  procedures : m.procedures = table
  tasks : ∀ task ∈ m.tasks, task.Commands

variable {m k : Machine ω}

theorem Noted.todo (noted : m.Noted table) {tasks : List Task}
    (commands : ∀ task ∈ tasks, task.Commands) : (m.todo tasks).Noted table := by
  refine ⟨noted.procedures, fun task member => ?_⟩
  rcases List.mem_append.mp member with new | old
  · exact commands task new
  · exact noted.tasks task old

variable [Host ω]

theorem carryOut_noted (noted : m.Noted table) {d : Deed} (commands : d.Commands) :
    (m.carryOut d).machine.Noted table := by
  cases d with
  | order o =>
    have waits := (m.perform (.order o)).settle_awaits
    simp only [carryOut]
    generalize (m.perform (.order o)).settle = p at waits
    cases waits <;> exact ⟨noted.procedures, noted.tasks⟩
  | store name x =>
    refine ⟨(store_procedures m name x).trans noted.procedures, fun task member => ?_⟩
    exact noted.tasks task (store_tasks m name x ▸ member)
  | push tasks => exact noted.todo commands
  | define => cases commands
  | call frame body =>
    have shape : IsCommand body := commands
    have pushed : (m.todo [.visit body, .leave]).Noted table :=
      noted.todo (by simpa [Task.Commands] using shape)
    exact ⟨pushed.procedures, pushed.tasks⟩

theorem proceed_noted (noted : m.Noted table)
    {find : Bindings (Tree Node) → View → Except RuntimeError Deed}
    (commands : ∀ v d, find table v = .ok d → d.Commands) :
    (m.proceed find).machine.Noted table := by
  have looked (host : ω) : ({ m with host } : Machine ω).Noted table :=
    ⟨noted.procedures, noted.tasks⟩
  have turns := m.proceed_turns find
  rw [← noted.procedures] at commands
  generalize m.proceed find = p at turns
  cases turns with
  | @stopped host | @refused host => exact looked host
  | @carried host d _ found => exact carryOut_noted (looked host) (commands _ d found)

theorem step_noted (sorted : Sorted table) (noted : m.Noted table) :
    m.step.machine.Noted table := by
  obtain ⟨tasks, globals, frames, procedures, host⟩ := m
  cases tasks with
  | nil => exact noted
  | cons task tasks =>
    have first : task.Commands := noted.tasks task (by simp)
    have rest : (⟨tasks, globals, frames, procedures, host⟩ : Machine ω).Noted table :=
      ⟨noted.procedures, fun other member => noted.tasks other (by simp [member])⟩
    cases task with
    | visit t =>
      refine proceed_noted rest fun v d found => ?_
      exact (comes_of_yields first (yields_of_deed found)).commands sorted
    | times count body =>
      cases count with
      | zero => exact rest
      | succ count =>
        have again : ∀ u ∈ [Task.visit body, .times count body], u.Commands := by
          simpa [Task.Commands] using first
        exact rest.todo again
    | loop condition body =>
      refine proceed_noted rest fun v d found => ?_
      exact commands_of_round first.1 first.2 found
    | leave => exact ⟨rest.procedures, rest.tasks⟩

theorem steps_noted (sorted : Sorted table) (noted : m.Noted table) (n : Nat) :
    (m.steps n).machine.Noted table :=
  steps_induction (fun _ => step_noted sorted) noted n

end Machine

namespace Machine

variable {procedures others : Bindings (Tree Node)}

theorem prepare_lookups (same : ∀ name, others.get? name = procedures.get? name) (v : View)
    (n : Node) (ts : List (Tree Node)) : prepare others v n ts = prepare procedures v n ts := by
  simp only [prepare, same]

theorem deed_lookups (same : ∀ name, others.get? name = procedures.get? name) (v : View)
    {t : Tree Node} (shape : IsCommand t) : deed others v t = deed procedures v t := by
  obtain ⟨n, ts⟩ := t
  have command : n.kind ≠ .program := by
    cases shape <;> grind
  -- apart from a program, only a call asks for procedures
  simp only [deed, prepare_lookups same]
  split
  · rename_i program
    exact absurd program command
  all_goals rfl

variable {ω : Type}

def under (others : Bindings (Tree Node)) (m : Machine ω) : Machine ω :=
  { m with procedures := others }

theorem store_under (m : Machine ω) (name : String) (x : Float) :
    (m.under others).store name x = (m.store name x).under others := by
  refine (m.store_with name x m.tasks others).trans ?_
  rw [under, store_tasks]

variable [Host ω]

theorem settle_under (m : Machine ω) :
    (m.under others).settle = m.settle.map (·.under others) := by
  have same : (m.under others).host = m.host := rfl
  unfold settle
  rw [same]
  rcases Host.settle m.host with ⟨_ | _ | _, host⟩ <;> rfl

theorem carryOut_under (m : Machine ω) {d : Deed} (commands : d.Commands) :
    (m.under others).carryOut d = (m.carryOut d).map (·.under others) := by
  cases d with
  | order o => exact settle_under (m.perform (.order o))
  | store name x =>
    simp only [carryOut, store_under]
    rfl
  | push | call => rfl
  | define => cases commands

theorem proceed_under {m : Machine ω}
    {find : Bindings (Tree Node) → View → Except RuntimeError Deed}
    (alike : ∀ v, find others v = find m.procedures v)
    (commands : ∀ v d, find m.procedures v = .ok d → d.Commands) :
    (m.under others).proceed find = (m.proceed find).map (·.under others) := by
  have same : (m.under others).host = m.host := rfl
  unfold proceed
  rw [same]
  rcases Host.poll m.host with ⟨_ | _, host⟩
  · let looked : Machine ω := { m with host }
    change (looked.under others).attempt find = (looked.attempt find).map (·.under others)
    have found : find (looked.under others).procedures (looked.under others).view =
        find looked.procedures looked.view := alike looked.view
    unfold attempt
    rw [found]
    cases e : find looked.procedures looked.view with
    | ok d => exact carryOut_under looked (commands _ d e)
    | error e => rfl
  · rfl

theorem step_under {m : Machine ω} (sorted : Sorted table) (noted : m.Noted table)
    (same : ∀ name, others.get? name = table.get? name) :
    (m.under others).step = m.step.map (·.under others) := by
  obtain ⟨tasks, globals, frames, own, host⟩ := m
  obtain ⟨known, commands⟩ := noted
  obtain rfl : own = table := known
  cases tasks with
  | nil => rfl
  | cons task tasks =>
    have first : task.Commands := commands task (by simp)
    let rest : Machine ω := ⟨tasks, globals, frames, own, host⟩
    cases task with
    | visit t =>
      refine proceed_under (m := rest) (fun v => deed_lookups same v first) fun v d found => ?_
      exact (comes_of_yields first (yields_of_deed found)).commands sorted
    | times count body => cases count <;> rfl
    | loop condition body =>
      exact proceed_under (m := rest) (fun v => rfl) fun v d => commands_of_round first.1 first.2
    | leave => rfl

/-- A run of commands goes the same with any table that has the same entries. -/
theorem steps_under {m : Machine ω} (sorted : Sorted table) (noted : m.Noted table)
    (same : ∀ name, others.get? name = table.get? name) (n : Nat) :
    (m.under others).steps n = (m.steps n).map (·.under others) := by
  induction n generalizing m with
  | zero => rfl
  | succ n ih =>
    have next := step_noted sorted noted
    unfold steps
    rw [step_under sorted noted same]
    cases step : m.step with
    | ended o k => rfl
    | going k =>
      rw [step] at next
      exact ih next

end Machine

def Tree.withDefinitions (ds : List (Tree Node)) : Tree Node → Tree Node
  | .node n [block, .node list _] => .node n [block, .node list ds]
  | t => t

namespace Machine

def frameOf (names : List String) (xs : List Float) : Bindings Float :=
  (names.zip xs).foldl (fun frame e => frame.put e.1 e.2) .empty

theorem given_eq (frame : Bindings Float) (ps : List (Tree Node)) (xs : List Float) :
    given frame ps xs =
      ((ps.map (·.value.text)).zip xs).foldl (fun frame e => frame.put e.1 e.2) frame := by
  induction ps generalizing frame xs with
  | nil => rfl
  | cons p ps ih =>
    cases xs with
    | nil => rfl
    | cons x xs => exact ih _ xs

/-- What a call should find, given the definition of what is called. -/
def resolve (v : View) (name : String) (as : List (Tree Node)) :
    Option (Tree Node) → Except RuntimeError (Bindings Float × Tree Node)
  | none => .error (.undefinedProcedure name)
  | some d =>
    if d.parameters.length ≠ as.length then
      .error (.arityMismatch name d.parameters.length as.length)
    else (as.mapM v.evaluate).map fun xs => (frameOf d.parameters xs, d.body)

theorem prepare_eq (sorted : Sorted table) (v : View) (n : Node) (name list : Tree Node) :
    prepare table v n [name, list] =
      resolve v name.value.text list.children (table.get? name.value.text) := by
  simp only [prepare, twoChildren_bind]
  cases found : table.get? name.value.text with
  | none => rfl
  | some d =>
    cases sorted _ _ found with
    | @definition n h own parameters body kind commands =>
      have titles : (Tree.node n [.node h [own, parameters], body]).parameters =
          parameters.children.map (·.value.text) := rfl
      simp only [resolve, twoChildren_bind, titles, List.length_map]
      split
      · rfl
      · rename_i counted
        rw [bind_eq v .empty _ _ (Decidable.of_not_not counted)]
        cases list.children.mapM v.evaluate with
        | error e => rfl
        | ok xs =>
          simp only [Except.map, given_eq]
          rfl

theorem resolve_unknown {v : View} {name f : String} {as : List (Tree Node)}
    {d? : Option (Tree Node)} (e : resolve v name as d? = .error (.undefinedProcedure f)) :
    d? = none := by
  cases d? with
  | none => rfl
  | some d =>
    simp only [resolve] at e
    split at e
    · cases e
    · cases v.mapM_evaluate_error (error_of_map e)

theorem resolve_miscounted {v : View} {name f : String} {i j : Nat} {as : List (Tree Node)}
    {d? : Option (Tree Node)} (e : resolve v name as d? = .error (.arityMismatch f i j)) :
    ∃ d, d? = some d ∧ d.parameters.length ≠ as.length := by
  cases d? with
  | none => cases e
  | some d =>
    simp only [resolve] at e
    split at e
    · rename_i miscounted
      exact ⟨d, rfl, miscounted⟩
    · cases v.mapM_evaluate_error (error_of_map e)

variable {ω : Type}

def enter (m : Machine ω) : Except RuntimeError (Bindings Float × Tree Node) → Progress ω
  | .ok (frame, body) =>
    .going { m.todo [.visit body, .leave] with frames := frame :: m.frames }
  | .error e => .ended (.failed e) m

theorem enter_error {m : Machine ω} {r : Except RuntimeError (Bindings Float × Tree Node)}
    {e : RuntimeError} : (∃ k, m.enter r = .ended (.failed e) k) ↔ r = .error e := by
  constructor
  · rintro ⟨k, ended⟩
    cases r with
    | ok entry => cases ended
    | error e =>
      cases ended
      rfl
  · rintro rfl
    exact ⟨m, rfl⟩

variable [Host ω]

inductive Executes (m : Machine ω) (t c : Tree Node) : Machine ω → Machine ω → Prop
  | intro {n : Nat} {k : Machine ω} {tasks : List Task} {host : ω}
    (reached : (m.start t).steps n = .going k) (next : k.tasks = .visit c :: tasks)
    (kind : c.value.kind = .call) (polled : Host.poll k.host = (false, host)) :
    Executes m t c k { k with tasks, host }

structure Resolves (t c : Tree Node) (name : String) (k looked : Machine ω) : Prop where
  step : k.step = looked.enter (resolve looked.view name (arguments c) (t.definition? name))
  unknown : (∃ f l, k.step = .ended (.failed (.undefinedProcedure f)) l) ↔
    t.definition? name = none
  miscounted : (∃ f i j l, k.step = .ended (.failed (.arityMismatch f i j)) l) ↔
    ∃ d, t.definition? name = some d ∧ d.parameters.length ≠ (arguments c).length

structure Dispatches (m : Machine ω) (t : Tree Node) : Prop where
  table : ∃ table : Bindings (Tree Node), (∀ name, table.get? name = t.definition? name) ∧
    ∀ k, (m.start t).step = .going k → ∀ n, (k.steps n).machine.procedures = table
  calls : ∀ c k looked, m.Executes t c k looked →
    ∃ name, c.called? = some name ∧ Resolves t c name k looked
  rearranged : ∀ ds, ds.Perm (Tree.lasting t.definitions) →
    (t.withDefinitions ds).definitions = ds ∧
      ∀ limit, (m.run limit (t.withDefinitions ds)).visible = (m.run limit t).visible

theorem resolves_of_step {t c : Tree Node} {name : String} {k looked : Machine ω}
    (step : k.step = looked.enter (resolve looked.view name (arguments c) (t.definition? name))) :
    Resolves t c name k looked := by
  refine ⟨step, ?_, ?_⟩
  · simp only [step, enter_error]
    constructor
    · rintro ⟨f, e⟩
      exact resolve_unknown e
    · intro missing
      exact ⟨name, by simp only [missing, resolve]⟩
  · simp only [step, enter_error]
    constructor
    · rintro ⟨f, i, j, e⟩
      exact resolve_miscounted e
    · rintro ⟨d, found, miscounted⟩
      refine ⟨name, d.parameters.length, (arguments c).length, ?_⟩
      simp only [found, resolve, if_pos miscounted]

theorem step_of_call (sorted : Sorted table) {k : Machine ω} (noted : k.Noted table)
    {c : Tree Node} {tasks : List Task} (next : k.tasks = .visit c :: tasks)
    (kind : c.value.kind = .call) {host : ω} (polled : Host.poll k.host = (false, host)) :
    ∃ name, c.called? = some name ∧
      let looked : Machine ω := { k with tasks, host }
      k.step = looked.enter (resolve looked.view name (arguments c) (table.get? name)) := by
  have shape : IsCommand c := noted.tasks (.visit c) (by simp [next])
  have known : k.procedures = table := noted.procedures
  have step : k.step = { k with tasks, host }.attempt (deed · · c) := by
    unfold Machine.step
    rw [next]
    simp only [proceed, polled]
  cases shape with
  | @call n name list _ values =>
    refine ⟨name.value.text, if_pos kind, ?_⟩
    rw [step, attempt_call _ kind]
    simp only [Tree.value, Tree.children, known, prepare_eq sorted]
    unfold enter
    rfl
  | _ => simp_all [Tree.value]

/-- After the first step of a program its procedures are noted. -/
theorem noted_of_start (m : Machine ω) {t : Tree Node} (shape : IsProgram t) :
    ∃ table, Sorted table ∧ (∀ name, table.get? name = t.definition? name) ∧
      ∀ k, (m.start t).step = .going k → ∀ n, (k.steps n).machine.Noted table := by
  obtain ⟨table, block, first, commands, -, sorted, noted⟩ := m.step_start shape
  refine ⟨table, sorted, noted, fun k e n => steps_noted sorted ?_ n⟩
  rw [first, opening] at e
  split at e
  · cases e
  · cases e
    exact ⟨rfl, by simpa [Task.Commands] using commands⟩

theorem resolves_of_executes {m k looked : Machine ω} {t c : Tree Node} (shape : IsProgram t)
    (executes : m.Executes t c k looked) :
    ∃ name, c.called? = some name ∧ Resolves t c name k looked := by
  obtain ⟨table, sorted, noted, started⟩ := m.noted_of_start shape
  cases executes with
  | @intro n _ tasks host reached next kind polled =>
    cases n with
    | zero =>
      -- what is visited first is the program, which is no call
      cases reached
      cases next
      cases shape
      simp_all [Tree.value]
    | succ n =>
      unfold steps at reached
      cases e : (m.start t).step with
      | ended o l => simp [e] at reached
      | going l =>
        have there := started l e n
        rw [e] at reached
        have reached : l.steps n = .going k := reached
        rw [reached] at there
        obtain ⟨name, called, step⟩ := step_of_call sorted there next kind polled
        rw [noted] at step
        exact ⟨name, called, resolves_of_step step⟩

theorem run_succ (m : Machine ω) {t : Tree Node} {table : Bindings (Tree Node)} {block : Tree Node}
    (first : (m.start t).step = m.opening table block) (limit : Nat) :
    (m.run (limit + 1) t).visible = ((m.opening table block).steps limit).visible := by
  have later : (m.start t).steps (limit + 1) = (m.opening table block).steps limit := by
    rw [steps_succ, first]
  unfold run
  rw [later]
  cases (m.opening table block).steps limit <;> rfl

omit [Host ω] in
theorem visible_map_under (others : Bindings (Tree Node)) (p : Progress ω) :
    (p.map (·.under others)).visible = p.visible := by
  cases p <;> rfl

/-- A program runs the same with other definitions if each name has the same last one. -/
theorem visible_of_definitions (m : Machine ω) {t u : Tree Node} (shape : IsProgram t)
    (other : IsProgram u) (block : u.children.head? = t.children.head?)
    (same : ∀ name, u.definition? name = t.definition? name) (limit : Nat) :
    (m.run limit u).visible = (m.run limit t).visible := by
  obtain ⟨table, block, first, commands, head, sorted, noted⟩ := m.step_start shape
  obtain ⟨table', block', first', -, head', -, noted'⟩ := m.step_start other
  obtain rfl : block' = block := by simp_all
  have alike (name : String) : table'.get? name = table.get? name := by
    rw [noted, noted', same]
  cases limit with
  | zero => rfl
  | succ limit =>
    rw [run_succ m first, run_succ m first', opening, opening]
    rcases Host.poll (Host.start m.host) with ⟨_ | _, host⟩
    · let begun : Machine ω := ⟨[.visit block'], .empty, [], table, host⟩
      have ready : begun.Noted table := ⟨rfl, by simpa [Task.Commands, begun] using commands⟩
      change ((begun.under table').steps limit).visible = (begun.steps limit).visible
      rw [steps_under sorted ready alike, visible_map_under]
    · rfl

end Machine

/-- Some of its definitions, in any order, make a program again. -/
theorem Tree.IsProgram.withDefinitions {t : Tree Node} (shape : IsProgram t)
    {ds : List (Tree Node)} (among : ∀ d ∈ ds, d ∈ t.definitions) :
    IsProgram (t.withDefinitions ds) ∧ (t.withDefinitions ds).children.head? = t.children.head? ∧
      (t.withDefinitions ds).definitions = ds := by
  cases shape with
  | @program n block list kind commands procedures =>
    obtain ⟨list, own⟩ := list
    exact ⟨.program kind commands fun d member => procedures d (among d member), rfl, rfl⟩

/-- What a call does is settled by the last definition of each name, and so is what a program does
whose other definitions are left out and whose last ones are put in another order. -/
theorem Program.dispatches_last {ω : Type} [Host ω] {source : String} {p : Program}
    (accepted : parse source = .ok p) (m : Machine ω) : m.Dispatches p.tree := by
  have shape : IsProgram p.tree := parse_shape accepted
  obtain ⟨table, -, noted, started⟩ := m.noted_of_start shape
  refine ⟨⟨table, noted, fun k e n => (started k e n).procedures⟩, ?_, ?_⟩
  · exact fun c k looked executes => Machine.resolves_of_executes shape executes
  · intro ds rearranged
    have among : ∀ d ∈ ds, d ∈ p.tree.definitions := fun d member =>
      (Tree.lasting_sublist _).subset (rearranged.mem_iff.mp member)
    obtain ⟨other, head, definitions⟩ := shape.withDefinitions among
    refine ⟨definitions, m.visible_of_definitions shape other head fun name => ?_⟩
    unfold Tree.definition?
    rw [definitions, Tree.lastNamed_of_perm rearranged]

/-- A name is defined twice. Only its last definition takes an argument, and draws with it. -/
theorem Program.dispatches_last_overridden :
    let m : Machine (Logged (Stage Sketch)) :=
      .new ⟨.quiet .blank (.new Pace.fastest false), []⟩
    ∃ p, parse "do f 1\ndef f \x7b\nhome\n\x7d\ndef f a \x7b\nforward a\n\x7d" = .ok p ∧
      p.tree.definitions.length = 2 ∧ (Tree.lasting p.tree.definitions).length = 1 ∧
      (m.run 9 p.tree).visible.1 = some .finished ∧
      (m.run 9 p.tree).machine.host.orders = [.forward 1] ∧ m.Dispatches p.tree := by
  intro m
  let close : Phrase.LineEnd := ⟨"\n", []⟩
  let block (c : Phrase.Command) : Phrase.Block := .braces close (.cons c .nil) close
  let f : Phrase.Procedure := ⟨"f", [], block (.bare .home close)⟩
  let g : Phrase.Procedure :=
    ⟨"f", ["a"], block (.move .forward (.signed none (.name "a") .nil .nil) close)⟩
  let s : Phrase.Script := ⟨[], .call "f" [.signed none (.number "1") .nil .nil] close, [], [f, g]⟩
  have derived : Derives
      "do f 1\ndef f \x7b\nhome\n\x7d\ndef f a \x7b\nforward a\n\x7d" s := by
    refine ⟨by decide +kernel, ?_⟩
    simp [s, f, g, block, close, Phrase.Script.Longest, Phrase.Command.Longest,
      Phrase.Block.Longest, Phrase.Commands.Longest, Phrase.LongestAllBefore,
      Phrase.Expression.LongestBefore, Phrase.Addends.Longest, Phrase.Factor.Longest,
      Phrase.Factors.Longest, Phrase.LineEnd.tokens, Phrase.startsSigned, Phrase.endOfLine,
      Phrase.mark]
  obtain ⟨p, accepted, tree⟩ := derived.parsed
  have ran : (m.run 9 s.tree).visible.1 = some .finished ∧
      (m.run 9 s.tree).machine.host.orders = [.forward 1] := by
    decide +kernel
  refine ⟨p, accepted, ?_, ?_, tree ▸ ran.1, tree ▸ ran.2, dispatches_last accepted _⟩
  · rw [tree]
    rfl
  · rw [tree]
    decide

end TurtleGraphics
