import Mathlib.Order.WellFoundedSet
import TurtleGraphics.Proofs.Run.Call
import TurtleGraphics.Proofs.Run.Definitions
import TurtleGraphics.Proofs.Run.Release
import TurtleGraphics.Proofs.Run.Safety

/-!
A program without `while` in which no procedure calls itself, directly or through others, comes to
an end. Each command passes: the run ends in it or gets to what follows it. This goes by induction
on the procedures along their calls, within a procedure on the size of a command, and within a
`repeat` on the rounds still to go.
-/

namespace TurtleGraphics

open TurtleGraphics.Tree (IsCommand IsProgram)

namespace Tree

variable {α : Type}

mutual

def subtrees : Tree α → List (Tree α)
  | .node v ts => .node v ts :: subtreesAll ts

def subtreesAll : List (Tree α) → List (Tree α)
  | [] => []
  | t :: ts => t.subtrees ++ subtreesAll ts

end

def callees (t : Tree Node) : List String :=
  t.subtrees.filterMap called?

/-- The last definition of one name calls the other name. -/
def Calls (t : Tree Node) (caller callee : String) : Prop :=
  ∃ d, t.definition? caller = some d ∧ callee ∈ d.body.callees

def Loopless (t : Tree Node) : Prop :=
  ∀ u ∈ t.subtrees, u.value.kind ≠ .loop

theorem mem_subtrees_self (t : Tree α) : t ∈ t.subtrees := by
  cases t
  exact List.mem_cons_self

theorem mem_subtreesAll {t u : Tree α} {ts : List (Tree α)} (member : t ∈ ts)
    (below : u ∈ t.subtrees) : u ∈ subtreesAll ts := by
  induction ts with
  | nil => simp at member
  | cons s ts ih =>
    rcases List.mem_cons.mp member with rfl | later
    · exact List.mem_append_left _ below
    · exact List.mem_append_right _ (ih later)

theorem mem_subtrees_of_child {t u w : Tree α} (child : u ∈ t.children) (below : w ∈ u.subtrees) :
    w ∈ t.subtrees := by
  cases t
  exact List.mem_cons_of_mem _ (mem_subtreesAll child below)

theorem size_le_sizeAll {t : Tree α} {ts : List (Tree α)} (member : t ∈ ts) :
    t.size ≤ sizeAll ts := by
  induction ts with
  | nil => simp at member
  | cons s ts ih =>
    rw [sizeAll]
    rcases List.mem_cons.mp member with rfl | later
    · omega
    · have := ih later
      omega

theorem size_lt_of_child {t u : Tree α} (child : u ∈ t.children) : u.size < t.size := by
  cases t
  have := size_le_sizeAll child
  rw [size]
  exact Nat.lt_succ_of_le this

theorem Loopless.child {t u : Tree Node} (loopless : t.Loopless) (child : u ∈ t.children) :
    u.Loopless :=
  fun w below => loopless w (mem_subtrees_of_child child below)

theorem mem_callees_of_child {t u : Tree Node} (child : u ∈ t.children) {name : String}
    (called : name ∈ u.callees) : name ∈ t.callees := by
  obtain ⟨w, below, same⟩ := List.mem_filterMap.mp called
  exact List.mem_filterMap.mpr ⟨w, mem_subtrees_of_child child below, same⟩

theorem mem_callees_self {t : Tree Node} {name : String} (called : t.called? = some name) :
    name ∈ t.callees :=
  List.mem_filterMap.mpr ⟨t, mem_subtrees_self t, called⟩

/-- What is done by a procedure stands in the program. -/
theorem IsProgram.body_of_definition {t d : Tree Node} (shape : IsProgram t)
    (defined : d ∈ t.definitions) : ∀ u ∈ d.body.subtrees, u ∈ t.subtrees := by
  intro u below
  cases shape with
  | @program n block list kind commands procedures =>
    have defined : d ∈ list.children := defined
    have inside : u ∈ d.subtrees := by
      cases procedures d defined with
      | definition => exact mem_subtrees_of_child (by simp [children, body]) below
    have listed : u ∈ list.subtrees := mem_subtrees_of_child defined inside
    exact mem_subtrees_of_child (by simp [children]) listed

/-- Where no name calls itself in the end, going from names to names they call ends, since only
finitely many names are defined. -/
theorem acc_calls {t : Tree Node} (acyclic : ∀ f, ¬ Relation.TransGen t.Calls f f) (f : String) :
    Acc (fun callee caller => t.Calls caller callee) f := by
  let below (g f : String) : Prop := Relation.TransGen t.Calls f g
  let defined : Set String := {f | some f ∈ t.definitions.map title?}
  have order : IsStrictOrder String below :=
    { irrefl := acyclic, trans := fun _ _ _ first second => second.trans first }
  have finite : defined.Finite :=
    ((t.definitions.map title?).finite_toSet).preimage (Option.some_injective String).injOn
  have founded : defined.WellFoundedOn below := finite.wellFoundedOn
  have undefined (f : String) (missing : f ∉ defined) :
      Acc (fun callee caller => t.Calls caller callee) f := by
    refine .intro f fun g ⟨d, found, _⟩ => ?_
    have none := lastNamed_eq_none.mpr missing
    exact absurd (none.symm.trans found) (by simp)
  by_cases known : f ∈ defined
  · refine founded.induction known fun f _ ih => .intro f fun g calls => ?_
    by_cases known : g ∈ defined
    · exact ih g known (.single calls)
    · exact undefined g known
  · exact undefined f known

end Tree

namespace Machine

variable {ω : Type} [Host ω]

def Arrives (m : Machine ω) (P : Machine ω → Prop) : Prop :=
  ∃ n, (∃ o k, m.steps n = .ended o k) ∨ ∃ k, m.steps n = .going k ∧ P k

section Arrives

variable {m : Machine ω} {P Q : Machine ω → Prop}

theorem Arrives.now (there : P m) : m.Arrives P :=
  ⟨0, .inr ⟨m, rfl, there⟩⟩

theorem Arrives.of_step (later : ∀ k, m.step = .going k → k.Arrives P) : m.Arrives P := by
  cases e : m.step with
  | ended o k => exact ⟨1, .inl ⟨o, k, by simp only [steps, e]⟩⟩
  | going k =>
    obtain ⟨n, arrives⟩ := later k e
    refine ⟨n + 1, ?_⟩
    simp only [steps, e]
    exact arrives

theorem Arrives.bind (first : m.Arrives P) (next : ∀ k, P k → k.Arrives Q) : m.Arrives Q := by
  obtain ⟨n, ended | ⟨k, gone, there⟩⟩ := first
  · exact ⟨n, .inl ended⟩
  · obtain ⟨n', arrives⟩ := next k there
    refine ⟨n + n', ?_⟩
    rw [steps_add, gone]
    exact arrives

end Arrives

/-- With these procedures a run ends in the tasks or gets to what follows them. -/
def Passes (ω : Type) [Host ω] (procedures : Bindings (Tree Node)) (tasks : List Task) : Prop :=
  ∀ m : Machine ω, m.procedures = procedures → (m.todo tasks).Arrives fun k =>
    k.tasks = m.tasks ∧ k.procedures = procedures

variable {procedures : Bindings (Tree Node)}

theorem Passes.cons {task : Task} {tasks : List Task} (first : Passes ω procedures [task])
    (others : Passes ω procedures tasks) : Passes ω procedures (task :: tasks) := by
  intro m known
  refine (first (m.todo tasks) known).bind fun k ⟨left, kept⟩ => ?_
  have rest := others { k with tasks := m.tasks } kept
  have same : ({ k with tasks := m.tasks } : Machine ω).todo tasks = k := by
    cases k
    cases left
    rfl
  rwa [same] at rest

theorem passes_all {tasks : List Task} (each : ∀ task ∈ tasks, Passes ω procedures [task]) :
    Passes ω procedures tasks := by
  induction tasks with
  | nil => exact fun m known => .now ⟨rfl, known⟩
  | cons task tasks ih =>
    exact .cons (each task (by simp)) (ih fun other member => each other (by simp [member]))

theorem passes_times {body : Tree Node} (once : Passes ω procedures [.visit body]) (count : Nat) :
    Passes ω procedures [.times count body] := by
  induction count with
  | zero =>
    refine fun m known => .of_step fun k e => ?_
    cases e
    exact .now ⟨rfl, known⟩
  | succ count ih =>
    refine fun m known => .of_step fun k e => ?_
    cases e
    exact Passes.cons once ih m known

def DeedPasses (ω : Type) [Host ω] (procedures : Bindings (Tree Node)) : Deed → Prop
  | .order _ | .store .. => True
  | .push tasks => Passes ω procedures tasks
  | .define .. => False
  | .call _ body => Passes ω procedures [.visit body]

theorem carryOut_arrives {m k : Machine ω} (known : m.procedures = procedures) {d : Deed}
    (passes : DeedPasses ω procedures d) (e : m.carryOut d = .going k) :
    k.Arrives fun l => l.tasks = m.tasks ∧ l.procedures = procedures := by
  cases d with
  | order o =>
    have waits := (m.perform (.order o)).settle_awaits
    simp only [carryOut] at e
    rw [e] at waits
    cases waits with
    | going => exact .now ⟨rfl, known⟩
  | store name x =>
    cases e
    exact .now ⟨store_tasks m name x, (store_procedures m name x).trans known⟩
  | push tasks =>
    cases e
    exact passes m known
  | define => cases passes
  | call frame body =>
    cases e
    let inside : Machine ω :=
      { m with tasks := .leave :: m.tasks, frames := frame :: m.frames }
    refine (passes inside known).bind fun k there => .of_step fun l e => ?_
    simp only [step, there.1, inside] at e
    cases e
    exact .now ⟨rfl, there.2⟩

theorem passes_visit {t : Tree Node}
    (deeds : ∀ v d, deed procedures v t = .ok d → DeedPasses ω procedures d) :
    Passes ω procedures [.visit t] := by
  refine fun m known => .of_step fun k e => ?_
  have turns := m.proceed_turns (deed · · t)
  change m.proceed (deed · · t) = .going k at e
  generalize m.proceed (deed · · t) = p at turns e
  cases turns with
  | stopped | refused => cases e
  | @carried host d polled found =>
    rw [known] at found
    exact carryOut_arrives (m := { m with host }) known (deeds _ d found) e

/-- A command passes if every procedure that it calls does. -/
theorem passes_command {t : Tree Node} (shape : IsCommand t) (loopless : t.Loopless)
    (calls : ∀ name ∈ t.callees, ∀ d, procedures.get? name = some d →
      Passes ω procedures [.visit d.body]) : Passes ω procedures [.visit t] := by
  generalize size : t.size = bound
  induction bound using Nat.strong_induction_on generalizing t with
  | _ bound ih =>
    have part {u : Tree Node} (child : u ∈ t.children) (shape : IsCommand u) :
        Passes ω procedures [.visit u] :=
      ih u.size (size ▸ Tree.size_lt_of_child child) shape (loopless.child child)
        (fun name called => calls name (Tree.mem_callees_of_child child called)) rfl
    refine passes_visit fun v d found => ?_
    cases comes_of_yields shape (yields_of_deed found) with
    | order | store => trivial
    | push each =>
      refine passes_all fun task member => ?_
      cases each task member with
      | visit child shape => exact part child shape
      | times count child shape => exact passes_times (part child shape) count
      | loop kind => exact absurd kind (loopless t t.mem_subtrees_self)
    | call kind ready =>
      -- the body of the procedure is no part of the command, so its size says nothing here
      obtain ⟨n, ts⟩ := t
      have kind : n.kind = .call := kind
      cases ready with
      | @intro name arguments _ _ _ _ _ _ noted =>
        have called : (Tree.node n [name, arguments]).called? = some name.value.text := if_pos kind
        exact calls _ (Tree.mem_callees_self called) _ noted

/-- Each procedure of a program passes if none comes back to itself. -/
theorem passes_procedure {t : Tree Node} (shape : IsProgram t) (loopless : t.Loopless)
    (acyclic : ∀ f, ¬ Relation.TransGen t.Calls f f) (sorted : Sorted procedures)
    (noted : ∀ name, procedures.get? name = t.definition? name) (f : String) :
    ∀ d, procedures.get? f = some d → Passes ω procedures [.visit d.body] := by
  induction Tree.acc_calls acyclic f with
  | intro f _ ih =>
    intro d found
    have defined : t.definition? f = some d := (noted f).symm.trans found
    have inside := shape.body_of_definition (Tree.mem_of_lastNamed defined).1
    refine passes_command (sorted f d found).body ?_ fun g called e known => ?_
    · exact fun u below => loopless u (inside u below)
    · exact ih g ⟨d, defined, called⟩ e known

theorem start_arrives (m : Machine ω) {t : Tree Node} (shape : IsProgram t) (loopless : t.Loopless)
    (acyclic : ∀ f, ¬ Relation.TransGen t.Calls f f) :
    (m.start t).Arrives fun k => k.tasks = [] := by
  obtain ⟨table, block, first, commands, head, sorted, noted⟩ := m.step_start shape
  refine .of_step fun k e => ?_
  rw [first, opening] at e
  split at e
  · cases e
  · rename_i host _
    cases e
    have child : block ∈ t.children := List.mem_of_head? head
    have passes : Passes ω table [.visit block] :=
      passes_command commands (loopless.child child) fun name _ d known =>
        passes_procedure shape loopless acyclic sorted noted name d known
    exact (passes ⟨[], .empty, [], table, host⟩ rfl).bind fun k there => .now there.1

/-- A run that gets to the end of its tasks ends. -/
theorem Arrives.ended {m : Machine ω} (arrives : m.Arrives fun k => k.tasks = []) :
    ∃ n o k, m.steps n = .ended o k := by
  have nowhere : m.Arrives fun _ => False :=
    arrives.bind fun k left => .of_step fun l e => by simp [step, left] at e
  obtain ⟨n, ⟨o, k, ended⟩ | ⟨k, _, impossible⟩⟩ := nowhere
  · exact ⟨n, o, k, ended⟩
  · exact impossible.elim

end Machine

/-- A program without loops in which no procedure comes back to itself comes to an end, however
often its `repeat`s go round, as long as nothing holds the turtle for ever. -/
theorem Program.run_ends {ω : Type} [Host ω] {P : ω → Prop} (releases : Host.Releases P)
    {source : String} {p : Program} (accepted : parse source = .ok p) (loopless : p.tree.Loopless)
    (acyclic : ∀ f, ¬ Relation.TransGen p.tree.Calls f f) (m : Machine ω)
    (free : P (Host.start m.host)) :
    ∃ limit o k, p.run limit m = .ended o k ∧
      (o = .finished ∨ o = .stopped ∨ ∃ e, o = .failed e) := by
  obtain ⟨limit, o, k, ended⟩ :=
    (m.start_arrives (parse_shape accepted) loopless acyclic).ended
  refine ⟨limit, o, k.finish, ?_, ?_⟩
  · simp only [Program.run, Machine.run, ended]
  · have released := Machine.steps_released (m := m.start p.tree) releases free limit k
    cases o with
    | finished => exact .inl rfl
    | stopped => exact .inr (.inl rfl)
    | failed e => exact .inr (.inr ⟨e, rfl⟩)
    | held => exact absurd ended released

/-- A procedure calls another one in a loop, and a controller pauses the turtle for a while. -/
theorem Program.run_ends_nested_calls :
    ∃ p,
      parse "repeat 3 \x7b\ndo f\n\x7d\ndef f \x7b\ndo g\n\x7d\ndef g \x7b\npenup\n\x7d" = .ok p ∧
      p.tree.Loopless ∧ (∀ f, ¬ Relation.TransGen p.tree.Calls f f) ∧
      Host.Releases (Stage.Relents (τ := Sketch)) ∧
      let stage : Stage Sketch :=
        ⟨.blank, .new Pace.fastest false, [], 0, Stage.scriptOf [⟨2, [.pause], [.resume]⟩]⟩
      (Host.start stage).Relents ∧ ∃ limit o k, p.run limit (.new stage) = .ended o k ∧
        (o = .finished ∨ o = .stopped ∨ ∃ e, o = .failed e) := by
  let close : Phrase.LineEnd := ⟨"\n", []⟩
  let block (c : Phrase.Command) : Phrase.Block := .braces close (.cons c .nil) close
  let f : Phrase.Procedure := ⟨"f", [], block (.call "g" [] close)⟩
  let g : Phrase.Procedure := ⟨"g", [], block (.bare .penUp close)⟩
  let s : Phrase.Script :=
    ⟨[], .times (.signed none (.number "3") .nil .nil) (block (.call "f" [] close)), [], [f, g]⟩
  have derived : Derives
      "repeat 3 \x7b\ndo f\n\x7d\ndef f \x7b\ndo g\n\x7d\ndef g \x7b\npenup\n\x7d" s := by
    refine ⟨by decide +kernel, ?_⟩
    simp [s, f, g, block, close, Phrase.Script.Longest, Phrase.Command.Longest,
      Phrase.Block.Longest, Phrase.Commands.Longest, Phrase.LongestAllBefore,
      Phrase.Expression.LongestBefore, Phrase.Addends.Longest, Phrase.Factor.Longest,
      Phrase.Factors.Longest, Phrase.Block.tokens, Phrase.startsSigned, Phrase.mark]
  obtain ⟨p, accepted, tree⟩ := derived.parsed
  have loopless : p.tree.Loopless := by
    rw [tree]
    unfold Tree.Loopless
    decide
  have edge : ∀ a b, p.tree.Calls a b → a = "f" ∧ b = "g" := by
    rw [tree]
    rintro a b ⟨d, found, called⟩
    obtain ⟨defined, titled⟩ := Tree.mem_of_lastNamed found
    have listed : d ∈ [f.tree, g.tree] := defined
    simp only [List.mem_cons, List.not_mem_nil, or_false] at listed
    rcases listed with rfl | rfl
    · exact ⟨(Option.some.inj titled).symm, List.mem_singleton.mp called⟩
    · exact absurd called List.not_mem_nil
  have acyclic : ∀ a, ¬ Relation.TransGen p.tree.Calls a a := by
    intro a cycle
    have path : ∀ b, Relation.TransGen p.tree.Calls a b → a = "f" ∧ b = "g" := by
      intro b way
      induction way with
      | single call => exact edge _ _ call
      | tail _ call ih => exact ⟨ih.1, (edge _ _ call).2⟩
    obtain ⟨rfl, same⟩ := path a cycle
    exact absurd same (by decide)
  let stage : Stage Sketch :=
    ⟨.blank, .new Pace.fastest false, [], 0, Stage.scriptOf [⟨2, [.pause], [.resume]⟩]⟩
  have relents : (Host.start stage).Relents := by
    refine ⟨by decide, fun n q free => ?_⟩
    by_cases second : n = 2
    · subst second
      have resumed : (q.played ((Host.start stage).script 2)) = { q with paused := false } := rfl
      simp only [Pace.holds, Bool.or_eq_false_iff] at free
      simp [resumed, Pace.holds, free.2]
    · have quiet : (Host.start stage).script n = [] := by
        simp [Host.start, Stage.start, Stage.look, stage, Stage.scriptOf, Ne.symm second]
      rwa [quiet]
  exact ⟨p, accepted, loopless, acyclic, Stage.relents_releases, relents,
    run_ends Stage.relents_releases accepted loopless acyclic (.new stage) relents⟩

end TurtleGraphics
