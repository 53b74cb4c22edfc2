import TurtleGraphics.Proofs.Grammar.Rendering
import TurtleGraphics.Proofs.Run.Evaluated
import TurtleGraphics.Proofs.Run.Failure
import TurtleGraphics.Proofs.Run.Termination

/-!
Runs that fail at a literal. The run of a program that was read from a text evaluates nothing but
parts of the program, and there each literal is a numeral, so only one that breaks off after the
sign of an exponent has no value.
-/

namespace TurtleGraphics

open TurtleGraphics.Tree (IsCommand IsProgram)

def Task.Evaluates (procedures : Bindings (Tree Node)) (v : View) : Task → Tree Node → Prop
  | .visit t => v.EvaluatesIn (Machine.Settles v t) (Machine.operands procedures t)
  | .loop condition _ => v.EvaluatesIn v.Has condition.children
  | .times .. | .leave => fun _ => False

namespace Machine

variable {ω : Type} [Host ω] {m : Machine ω} {w : String}

/-- What is evaluated in the next step, which looks at the switches first. -/
def Evaluates (m : Machine ω) (u : Tree Node) : Prop :=
  ∃ l, m.Looks l ∧ ∃ task ∈ m.tasks.head?, task.Evaluates m.procedures l.view u

theorem evaluates_cons {task : Task} {tasks : List Task} (next : m.tasks = task :: tasks) :
    (∃ u, m.Evaluates u ∧ u.Unreadable w) ↔
      ∃ l, m.Looks l ∧ ∃ u, task.Evaluates m.procedures l.view u ∧ u.Unreadable w := by
  simp only [Evaluates, next, List.head?_cons, Option.mem_def, Option.some.injEq,
    exists_eq_left']
  constructor
  · rintro ⟨u, ⟨l, looks, evaluated⟩, unreadable⟩
    exact ⟨l, looks, u, evaluated, unreadable⟩
  · rintro ⟨l, looks, u, evaluated, unreadable⟩
    exact ⟨u, ⟨l, looks, evaluated⟩, unreadable⟩

theorem deed_eq_invalid_iff {procedures : Bindings (Tree Node)} {v : View}
    (sorted : Sorted procedures) {t : Tree Node} (shape : IsProgram t ∨ IsCommand t) :
    deed procedures v t = .error (.invalidNumber w) ↔
      v.Meets (Settles v t) (operands procedures t) w := by
  rcases shape with program | command
  · cases program with
    | @program n block list kind _ definitions =>
      obtain ⟨table, defined, -⟩ := defineAll_ok definitions procedures
      rw [deed_program kind defined]
      obtain ⟨_, token⟩ := n
      obtain rfl := kind
      exact View.meets_last nofun
  · exact command_eq_invalid_iff sorted command

/-- A step fails for a literal if and only if it evaluates one that cannot be read. -/
theorem step_invalid_iff (shaped : m.Shaped) :
    (∃ f, m.step = .ended (.failed (.invalidNumber w)) f) ↔
      ∃ u, m.Evaluates u ∧ u.Unreadable w := by
  have proceeds {tasks : List Task} {task : Task}
      {find : Bindings (Tree Node) → View → Except RuntimeError Deed}
      (next : m.tasks = task :: tasks) (turn : m.step = (m.doing tasks).proceed find)
      (found : ∀ v, find m.procedures v = .error (.invalidNumber w) ↔
        ∃ u, task.Evaluates m.procedures v u ∧ u.Unreadable w) :
      (∃ f, m.step = .ended (.failed (.invalidNumber w)) f) ↔
        ∃ u, m.Evaluates u ∧ u.Unreadable w := by
    rw [turn, proceed_fails_iff, evaluates_cons next]
    refine exists_congr fun l => and_congr_right fun looks => ?_
    cases looks
    exact found _
  have passes {tasks : List Task} {task : Task} (next : m.tasks = task :: tasks)
      (turn : ∀ f, m.step ≠ .ended (.failed (.invalidNumber w)) f)
      (idle : ∀ v u, ¬ task.Evaluates m.procedures v u) :
      (∃ f, m.step = .ended (.failed (.invalidNumber w)) f) ↔
        ∃ u, m.Evaluates u ∧ u.Unreadable w := by
    rw [evaluates_cons next]
    exact iff_of_false (fun ⟨f, failed⟩ => turn f failed)
      fun ⟨l, _, u, evaluated, _⟩ => idle l.view u evaluated
  obtain ⟨tasks, globals, frames, procedures, host⟩ := m
  cases tasks with
  | nil =>
    refine iff_of_false (fun ⟨f, failed⟩ => ?_) fun ⟨u, ⟨l, _, task, first, _⟩, _⟩ => ?_
    · cases failed
    · cases first
  | cons task tasks =>
    have first : task.Shaped := shaped.tasks task (by simp)
    cases task with
    | visit t => exact proceeds rfl rfl fun v => deed_eq_invalid_iff shaped.procedures first
    | times count => exact passes rfl (by cases count <;> nofun) nofun
    | loop condition body => exact proceeds rfl rfl fun v => round_eq_invalid_iff first.1
    | leave => exact passes rfl nofun nofun

end Machine

namespace View

variable {v : View} {t u : Tree Node}

theorem Evaluates.mem_subtrees (evaluated : v.Evaluates t u) : u ∈ t.subtrees := by
  induction evaluated with
  | self => exact Tree.mem_subtrees_self _
  | sign _ _ operand => exact Tree.mem_subtrees_of_child (by simp [Tree.children]) operand
  | left _ _ first => exact Tree.mem_subtrees_of_child (by simp [Tree.children]) first
  | right _ _ _ second => exact Tree.mem_subtrees_of_child (by simp [Tree.children]) second

theorem EvaluatesIn.mem_subtrees {fine : Tree Node → Prop} {ts : List (Tree Node)}
    (evaluated : v.EvaluatesIn fine ts u) : ∃ t ∈ ts, u ∈ t.subtrees := by
  induction ts with
  | nil => cases evaluated
  | cons t ts ih =>
    rcases evaluated with first | ⟨_, others⟩
    · exact ⟨t, List.mem_cons_self, first.mem_subtrees⟩
    · obtain ⟨s, member, below⟩ := ih others
      exact ⟨s, List.mem_cons_of_mem t member, below⟩

end View

def Deed.tasks : Deed → List Task
  | .order _ | .store .. => []
  | .push tasks => tasks
  | .define _ block => [.visit block]
  | .call _ body => [.visit body, .leave]

inductive Task.Brings (procedures : Bindings (Tree Node)) : Task → Task → Prop
  | visit {v : View} {t : Tree Node} {d : Deed} {task : Task}
    (found : Machine.deed procedures v t = .ok d) (member : task ∈ d.tasks) :
    Brings procedures (.visit t) task
  | loop {v : View} {condition body : Tree Node} {d : Deed} {task : Task}
    (found : Machine.round v condition body = .ok d) (member : task ∈ d.tasks) :
    Brings procedures (.loop condition body) task
  | again {count : Nat} {body : Tree Node} :
    Brings procedures (.times (count + 1) body) (.visit body)
  | fewer {count : Nat} {body : Tree Node} :
    Brings procedures (.times (count + 1) body) (.times count body)

/-- What the task is about is part of the program. -/
def Task.Stands (t : Tree Node) : Task → Prop
  | .visit u | .times _ u => u.subtrees ⊆ t.subtrees
  | .loop condition body => condition.subtrees ⊆ t.subtrees ∧ body.subtrees ⊆ t.subtrees
  | .leave => True

namespace Machine

section Stands

variable {procedures : Bindings (Tree Node)} {t : Tree Node} {first task : Task}

theorem stands_of_brings (brings : first.Brings procedures task) (stands : first.Stands t)
    (bodies : ∀ name d, procedures.get? name = some d → d.body.subtrees ⊆ t.subtrees) :
    task.Stands t := by
  cases brings with
  | again | fewer => exact stands
  | loop found member =>
    obtain ⟨b, -, done⟩ := ok_of_bind found
    cases done
    cases b with
    | false => cases member
    | true =>
      rcases List.mem_pair.mp member with rfl | rfl
      · exact stands.2
      · exact stands
  | @visit v u d _ found member =>
    have child {s : Tree Node} (child : s ∈ u.children) : s.subtrees ⊆ t.subtrees :=
      fun w below => stands (Tree.mem_subtrees_of_child child below)
    cases yields_of_deed found with
    | assign | order => cases member
    | program =>
      obtain rfl := List.mem_singleton.mp member
      exact child (by simp [Tree.children])
    | block =>
      obtain ⟨s, inside, rfl⟩ := List.mem_map.mp member
      exact child inside
    | times =>
      obtain rfl := List.mem_singleton.mp member
      exact child (by simp [Tree.children])
    | loop =>
      obtain rfl := List.mem_singleton.mp member
      exact ⟨child (by simp [Tree.children]), child (by simp [Tree.children])⟩
    | @branch _ _ _ b =>
      cases b with
      | false => cases member
      | true =>
        obtain rfl := List.mem_singleton.mp member
        exact child (by simp [Tree.children])
    | @branchElse _ _ _ _ b =>
      obtain rfl := List.mem_singleton.mp member
      cases b <;> exact child (by simp [Tree.children])
    | call _ ready =>
      rcases List.mem_pair.mp member with rfl | rfl
      · cases ready_of_prepare ready with
        | intro found => exact bodies _ _ found
      · trivial

/-- An operand of a command is a child of it, or of a child. -/
theorem mem_operands {u e : Tree Node} :
    e ∈ operands procedures u → e ∈ u.children ∨ ∃ s ∈ u.children, e ∈ s.children := by
  fun_cases operands procedures u with
  | case1 | case2 | case3 | case4 | case5 | case6 => exact fun member => .inl member
  | case7 => exact fun member => .inl (List.mem_cons_of_mem _ member)
  | case8 => exact fun member => .inl (List.mem_append_left [_] member)
  | case9 => exact fun member => .inr ⟨_, List.mem_cons_self, member⟩
  | case10 n name arguments => exact fun member => .inr ⟨arguments, by simp [Tree.children], member⟩
  | case11 | case12 =>
    intro member
    cases member

theorem evaluated_stands {v : View} {u : Tree Node} (stands : task.Stands t)
    (evaluated : task.Evaluates procedures v u) : u ∈ t.subtrees := by
  have child {s c : Tree Node} (within : s.subtrees ⊆ t.subtrees) (member : c ∈ s.children) :
      c.subtrees ⊆ t.subtrees :=
    fun w below => within (Tree.mem_subtrees_of_child member below)
  cases task with
  | visit s =>
    obtain ⟨e, member, below⟩ := View.EvaluatesIn.mem_subtrees evaluated
    rcases mem_operands member with near | ⟨c, near, far⟩
    · exact child stands near below
    · exact child (child stands near) far below
  | loop condition body =>
    obtain ⟨e, member, below⟩ := View.EvaluatesIn.mem_subtrees evaluated
    exact child stands.1 member below
  | times | leave => cases evaluated

end Stands

variable {ω : Type} [Host ω] {m k : Machine ω} {t u : Tree Node} {task : Task}

theorem carryOut_tasks (m : Machine ω) (d : Deed) :
    (m.carryOut d).machine.tasks = d.tasks ++ m.tasks := by
  cases d with
  | order o =>
    have waits := (m.perform (.order o)).settle_awaits
    simp only [carryOut]
    generalize (m.perform (.order o)).settle = p at waits
    cases waits <;> rfl
  | store name x => exact store_tasks m name x
  | push | define | call => rfl

theorem proceed_tasks {find : Bindings (Tree Node) → View → Except RuntimeError Deed}
    (member : task ∈ (m.proceed find).machine.tasks) :
    task ∈ m.tasks ∨ ∃ v d, find m.procedures v = .ok d ∧ task ∈ d.tasks := by
  have turns := m.proceed_turns find
  generalize m.proceed find = p at turns member
  cases turns with
  | stopped | refused => exact .inl member
  | carried _ found =>
    rw [carryOut_tasks] at member
    rcases List.mem_append.mp member with new | old
    · exact .inr ⟨_, _, found, new⟩
    · exact .inl old

/-- After a step there are tasks from before and those that one of them has come to. -/
theorem step_tasks (member : task ∈ m.step.machine.tasks) :
    task ∈ m.tasks ∨ ∃ first ∈ m.tasks, first.Brings m.procedures task := by
  obtain ⟨tasks, globals, frames, procedures, host⟩ := m
  cases tasks with
  | nil => cases member
  | cons first tasks =>
    have old (later : task ∈ tasks) : task ∈ first :: tasks := List.mem_cons_of_mem first later
    cases first with
    | visit t =>
      rcases proceed_tasks member with later | ⟨v, d, found, new⟩
      · exact .inl (old later)
      · exact .inr ⟨_, List.mem_cons_self, .visit found new⟩
    | loop condition body =>
      rcases proceed_tasks member with later | ⟨v, d, found, new⟩
      · exact .inl (old later)
      · exact .inr ⟨_, List.mem_cons_self, .loop found new⟩
    | times count body =>
      cases count with
      | zero => exact .inl (old member)
      | succ count =>
        rcases List.mem_cons.mp member with rfl | others
        · exact .inr ⟨_, List.mem_cons_self, .again⟩
        · rcases List.mem_cons.mp others with rfl | later
          · exact .inr ⟨_, List.mem_cons_self, .fewer⟩
          · exact .inl (old later)
    | leave => exact .inl (old member)

theorem steps_stand (shape : IsProgram t) {n : Nat}
    (reached : (m.start t).steps n = .going k) : ∀ task ∈ k.tasks, task.Stands t := by
  obtain ⟨table, block, first, commands, head, sorted, noted⟩ := m.step_start shape
  have bodies (name : String) (d : Tree Node) (found : table.get? name = some d) :
      d.body.subtrees ⊆ t.subtrees := by
    rw [noted] at found
    exact shape.body_of_definition (Tree.mem_of_lastNamed found).1
  have next (l : Machine ω) (there : l.Noted table ∧ ∀ task ∈ l.tasks, task.Stands t) :
      l.step.machine.Noted table ∧ ∀ task ∈ l.step.machine.tasks, task.Stands t := by
    refine ⟨step_noted sorted there.1, fun task member => ?_⟩
    rcases step_tasks member with old | ⟨other, earlier, brings⟩
    · exact there.2 task old
    · rw [there.1.procedures] at brings
      exact stands_of_brings brings (there.2 other earlier) bodies
  cases n with
  | zero =>
    cases reached
    intro task member
    obtain rfl := List.mem_singleton.mp member
    exact List.Subset.refl _
  | succ n =>
    rw [steps_succ, first, opening] at reached
    split at reached
    · cases reached
    · rename_i host _
      have begun : (⟨[.visit block], .empty, [], table, host⟩ : Machine ω).Noted table :=
        ⟨rfl, by simpa [Task.Commands] using commands⟩
      have stands : ∀ task ∈ [Task.visit block], task.Stands t := by
        intro task member
        obtain rfl := List.mem_singleton.mp member
        exact fun w below => Tree.mem_subtrees_of_child (List.mem_of_head? head) below
      have later := (steps_induction next ⟨begun, stands⟩ n).2
      have same : (Machine.steps n ⟨[.visit block], .empty, [], table, host⟩) = .going k := reached
      rw [same] at later
      exact later

end Machine

namespace Program

variable {ω : Type} [Host ω] {p : Program} {u : Tree Node} {w : String}

/-- What is evaluated in at most so many steps of a run. -/
def Evaluates (p : Program) (limit : Nat) (m : Machine ω) (u : Tree Node) : Prop :=
  ∃ n k, n < limit ∧ (m.start p.tree).steps n = .going k ∧ k.Evaluates u

/-- A run evaluates nothing but parts of the program. -/
theorem Evaluates.mem_subtrees {limit : Nat} {m : Machine ω} (shape : IsProgram p.tree)
    (evaluated : p.Evaluates limit m u) : u ∈ p.tree.subtrees := by
  obtain ⟨n, k, -, reached, l, -, task, first, evaluated⟩ := evaluated
  exact Machine.evaluated_stands (Machine.steps_stand shape reached task (List.mem_of_head? first))
    evaluated

theorem run_invalid_iff (shape : IsProgram p.tree) (limit : Nat) (m : Machine ω) :
    (∃ k, p.run limit m = .ended (.failed (.invalidNumber w)) k) ↔
      ∃ u, p.Evaluates limit m u ∧ u.Unreadable w := by
  have ended : (∃ k, p.run limit m = .ended (.failed (.invalidNumber w)) k) ↔
      ∃ f, (m.start p.tree).steps limit = .ended (.failed (.invalidNumber w)) f := by
    unfold run Machine.run
    cases (m.start p.tree).steps limit <;> simp
  have sound {n : Nat} {k : Machine ω} (reached : (m.start p.tree).steps n = .going k) :
      k.Shaped := by
    have sound := Machine.steps_sound (m.start_shaped shape) n
    rw [reached] at sound
    cases sound with
    | going shaped => exact shaped
  rw [ended]
  simp only [Machine.steps_ended_iff]
  constructor
  · rintro ⟨f, n, k, before, reached, last⟩
    obtain ⟨u, evaluated, unreadable⟩ := (Machine.step_invalid_iff (sound reached)).mp ⟨f, last⟩
    exact ⟨u, ⟨n, k, before, reached, evaluated⟩, unreadable⟩
  · rintro ⟨u, ⟨n, k, before, reached, evaluated⟩, unreadable⟩
    obtain ⟨f, last⟩ := (Machine.step_invalid_iff (sound reached)).mpr ⟨u, evaluated, unreadable⟩
    exact ⟨f, n, k, before, reached, last⟩

end Program

mutual

theorem Tree.node_of_mem_meant {u : Tree Node} (p : Place) :
    (t : Tree String) → u ∈ (t.meant p).subtrees → ∃ q w, u.value = Place.node q w
  | .node w [], member => by
    obtain rfl := List.mem_singleton.mp member
    exact ⟨p, w, rfl⟩
  | .node w (t :: ts), member => by
    rcases List.mem_cons.mp member with rfl | below
    · exact ⟨p, w, rfl⟩
    · rcases List.mem_append.mp below with first | others
      · exact node_of_mem_meant p.first t first
      · exact node_of_mem_meantAll (p.others w) ts others

theorem Tree.node_of_mem_meantAll {u : Tree Node} (p : Place) :
    (ts : List (Tree String)) → u ∈ subtreesAll (meantAll p ts) → ∃ q w, u.value = Place.node q w
  | [], member => nomatch member
  | t :: ts, member => by
    rcases List.mem_append.mp member with first | others
    · exact node_of_mem_meant p t first
    · exact node_of_mem_meantAll p ts others

end

theorem Node.Kind.number_of_ofToken {t : Token} (number : Node.Kind.ofToken t = .number) :
    t.kind = .number := by
  obtain ⟨kind, text⟩ := t
  have keyword : ofKeyword text ≠ .number := by
    unfold ofKeyword
    split
    all_goals first | exact Kind.noConfusion | cases Palette.ofName? _ <;> exact Kind.noConfusion
  have symbol : ofSymbol text ≠ .number := by
    unfold ofSymbol
    split <;> exact Kind.noConfusion
  cases kind with
  | number => rfl
  | keyword => exact absurd number keyword
  | symbol => exact absurd number symbol
  | name | endOfLine | endOfInput | error => cases number

/-- A number in a program that was read from a text is a numeral. -/
theorem Program.numeral_of_mem_subtrees {source : String} {p : Program}
    (accepted : parse source = .ok p) {n : Node} {ts : List (Tree Node)}
    (member : .node n ts ∈ p.tree.subtrees) (number : n.kind = .number) :
    Token.Numeral n.text.toList := by
  rw [← (fits_of_parse accepted).meant] at member
  obtain ⟨q, w, value⟩ := Tree.node_of_mem_meant _ _ member
  obtain rfl : n = q.node w := value
  have token (number : (Node.ofToken (.ofText keywords w)).kind = .number) :
      Token.Numeral (Node.ofToken (.ofText keywords w)).text.toList :=
    Token.numeral_ofText (Node.Kind.number_of_ofToken number)
  cases q with
  | program | procedures | header | list | block => cases number
  | procedure | command | token => exact token number

def Tree.IsLiteral (text : String) (u : Tree Node) : Prop :=
  ∃ n, u = .node n [] ∧ n.kind = .number ∧ n.text = text

/-- A number that is read from a source has a value unless it ends in a sign. A run of a program
that was read fails for an invalid number if and only if it evaluates a literal that breaks off
after the sign of an exponent. -/
theorem Program.invalid_iff_unfinished :
    (∀ keywords source ts, ((Feed.ofSource keywords source).use .tokenize).1 = .tokens ts →
      ∀ t ∈ ts, t.kind = .number → ((∃ x, literalValue t.text = .ok x) ↔
        ∀ c ∈ t.text.toList.getLast?, Token.isSign c = false)) ∧
    ∀ source p, parse source = .ok p → ∀ (ω : Type) [Host ω] (limit : Nat) (m : Machine ω) text,
      (∃ k, p.run limit m = .ended (.failed (.invalidNumber text)) k) ↔
        ∃ u ∈ p.tree.subtrees, u.IsLiteral text ∧ Token.Unfinished text.toList ∧
          p.Evaluates limit m u := by
  constructor
  · intro keywords source ts delivered t member number
    cases delivered
    exact literalValue_ok_iff (Token.numeral_of_mem_ofSource member number)
  · intro source p accepted ω _ limit m text
    have shape := parse_shape accepted
    rw [run_invalid_iff shape]
    constructor
    · rintro ⟨u, evaluated, n, rfl, number, wrong⟩
      have member := evaluated.mem_subtrees shape
      have numeral := numeral_of_mem_subtrees accepted member number
      obtain ⟨same, unfinished⟩ := (literalValue_error_iff numeral).mp wrong
      obtain rfl := RuntimeError.invalidNumber.inj same
      exact ⟨_, member, ⟨n, rfl, number, rfl⟩, unfinished, evaluated⟩
    · rintro ⟨u, member, ⟨n, rfl, number, rfl⟩, unfinished, evaluated⟩
      have numeral := numeral_of_mem_subtrees accepted member number
      exact ⟨_, evaluated, n, rfl, number, (literalValue_error_iff numeral).mpr ⟨rfl, unfinished⟩⟩

theorem Program.invalid_iff_unfinished_forward :
    let m : Machine (Stage Sketch) := .new (.quiet .blank (.new Pace.fastest false))
    (¬ ∃ x, literalValue "1e+" = .ok x) ∧ ∃ p, parse "forward 1e+" = .ok p ∧
      (∃ k, p.run 9 m = .ended (.failed (.invalidNumber "1e+")) k) ∧
      ∃ u ∈ p.tree.subtrees, u.IsLiteral "1e+" ∧ Token.Unfinished "1e+".toList ∧
        p.Evaluates 9 m u := by
  intro m
  let number : Phrase.Expression := .signed none (.number "1e+") .nil .nil
  let s : Phrase.Script := ⟨[], .move .forward number ⟨"\n", []⟩, [], []⟩
  have derived : Derives "forward 1e+" s := by
    refine ⟨by decide +kernel, number.longestBefore rfl, ?_, ?_⟩
    · exact List.forall_mem_nil _
    · exact List.forall_mem_nil _
  obtain ⟨p, accepted, tree⟩ := derived.parsed
  have ran : ∃ k, p.run 9 m = .ended (.failed (.invalidNumber "1e+")) k := by
    unfold run
    rw [tree]
    exact ⟨_, rfl⟩
  have delivered : ((Feed.ofSource keywords "forward 1e+").use .tokenize).1 =
      .tokens [⟨.keyword, "forward"⟩, ⟨.number, "1e+"⟩, Token.theEnd] := by
    decide +kernel
  have value := invalid_iff_unfinished.1 _ _ _ delivered ⟨.number, "1e+"⟩ (by simp) rfl
  have signed : ¬ ∀ c ∈ "1e+".toList.getLast?, Token.isSign c = false :=
    fun unsigned => nomatch unsigned '+' rfl
  exact ⟨fun found => signed (value.mp found), p, accepted, ran,
    (invalid_iff_unfinished.2 _ p accepted _ 9 m _).mp ran⟩

end TurtleGraphics
