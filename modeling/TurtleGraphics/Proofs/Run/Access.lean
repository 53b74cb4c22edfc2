import TurtleGraphics.Proofs.Forest.Roots
import TurtleGraphics.Proofs.Grammar.Parse
import TurtleGraphics.Proofs.Run.Agreement
import TurtleGraphics.Proofs.Run.Call
import TurtleGraphics.Proofs.Run.Log
import TurtleGraphics.Turtle.Sketch

/-!
No run asks for a node that is not there. A run that reads its program off a forest goes with the
run of the tree there, step by step, whatever the nodes are; and however it ends, each procedure
that was called has given up its variables.
-/

namespace TurtleGraphics

variable {ω : Type}

/-- There are the variables of each procedure that is yet to be left, and no others. -/
def Machine.Balanced (m : Machine ω) : Prop :=
  m.frames.length = leaves m.tasks

def Progress.Balanced : Progress ω → Prop
  | going m => m.Balanced
  | ended o m => m.Balanced ∧ (o = .finished → m.tasks = [])

namespace Machine

theorem Balanced.todo {m : Machine ω} (balanced : m.Balanced) {tasks : List Task}
    (none : leaves tasks = 0) : (m.todo tasks).Balanced := by
  have size : m.frames.length = leaves m.tasks := balanced
  simp [Balanced, Machine.todo, none, size]

variable [Host ω] {m : Machine ω}

theorem settle_balanced (balanced : m.Balanced) : m.settle.Balanced := by
  unfold settle
  rcases Host.settle m.host with ⟨_ | _ | _, host⟩
  · exact balanced
  · exact ⟨balanced, by simp⟩
  · exact ⟨balanced, by simp⟩

theorem carryOut_balanced (balanced : m.Balanced) {d : Deed}
    (pushed : ∀ tasks, d = .push tasks → leaves tasks = 0) : (m.carryOut d).Balanced := by
  have size : m.frames.length = leaves m.tasks := balanced
  cases d with
  | order o =>
    have same : (m.perform (.order o)).Balanced := balanced
    exact settle_balanced same
  | store name x =>
    change (m.store name x).frames.length = leaves (m.store name x).tasks
    rw [length_frames_store, store_tasks, size]
  | push tasks => exact balanced.todo (pushed tasks rfl)
  | define procedures block =>
    have same : ({ m with procedures } : Machine ω).Balanced := balanced
    have none : leaves [.visit block] = 0 := rfl
    exact same.todo none
  | call frame body =>
    change (frame :: m.frames).length = leaves ([.visit body, .leave] ++ m.tasks)
    rw [leaves_append, List.length_cons, size, Nat.add_comm]
    rfl

theorem attempt_balanced (balanced : m.Balanced)
    {find : Bindings (Tree Node) → View → Except RuntimeError Deed}
    (pushed : ∀ procedures v tasks, find procedures v = .ok (.push tasks) → leaves tasks = 0) :
    (m.attempt find).Balanced := by
  unfold attempt
  cases found : find m.procedures m.view with
  | ok d =>
    refine carryOut_balanced balanced fun tasks same => ?_
    rw [same] at found
    exact pushed _ _ _ found
  | error e => exact ⟨balanced, by simp⟩

theorem proceed_balanced (balanced : m.Balanced)
    {find : Bindings (Tree Node) → View → Except RuntimeError Deed}
    (pushed : ∀ procedures v tasks, find procedures v = .ok (.push tasks) → leaves tasks = 0) :
    (m.proceed find).Balanced := by
  unfold proceed
  rcases Host.poll m.host with ⟨_ | _, host⟩
  · have same : ({ m with host } : Machine ω).Balanced := balanced
    exact attempt_balanced same pushed
  · exact ⟨balanced, by simp⟩

theorem step_balanced (balanced : m.Balanced) : m.step.Balanced := by
  obtain ⟨tasks, globals, frames, procedures, host⟩ := m
  cases tasks with
  | nil => exact ⟨balanced, fun _ => rfl⟩
  | cons task tasks =>
    let rest : Machine ω := ⟨tasks, globals, frames, procedures, host⟩
    cases task with
    | visit t =>
      have same : rest.Balanced := balanced
      exact proceed_balanced same fun _ _ _ => leaves_of_deed
    | times count body => cases count <;> exact balanced
    | loop condition body =>
      have same : rest.Balanced := balanced
      exact proceed_balanced same fun _ _ _ => leaves_of_round
    | leave =>
      have size : frames.length = leaves tasks + 1 := balanced
      change frames.tail.length = leaves tasks
      rw [List.length_tail, size, Nat.add_sub_cancel]

theorem frames_of_run {limit : Nat} {t : Tree Node} {o : Outcome} {k : Machine ω}
    (ended : m.run limit t = .ended o k) : k.frames = [] := by
  unfold run at ended
  split at ended
  · cases ended
  · cases ended
    rfl

theorem steps_balanced (balanced : m.Balanced) (n : Nat) : (m.steps n).Balanced := by
  induction n generalizing m with
  | zero => exact balanced
  | succ n ih =>
    have next := step_balanced balanced
    unfold steps
    cases step : m.step with
    | going k =>
      rw [step] at next
      exact ih next
    | ended o k =>
      rw [step] at next
      exact next

end Machine

namespace Machine

/-- Where a value is put does not depend on the program. -/
theorem store_programless (m : Machine ω) (name : String) (x : Float) :
    let bare := { m with tasks := [], procedures := .empty }.store name x
    bare.globals = (m.store name x).globals ∧ bare.frames = (m.store name x).frames := by
  dsimp only
  rw [store_with]
  exact ⟨rfl, rfl⟩

end Machine

namespace Walk

variable {f : Forest Node}

structure Mirrors (f : Forest Node) (w : Walk ω) (m : Machine ω) : Prop where
  tasks : List.Forall₂ f.Meets w.tasks m.tasks
  globals : w.globals = m.globals
  frames : w.frames = m.frames
  procedures : f.Knows w.procedures m.procedures
  host : w.host = m.host

inductive Progress.Mirrors (f : Forest Node) : Progress ω → TurtleGraphics.Progress ω → Prop
  | going {w : Walk ω} {m : Machine ω} (same : w.Mirrors f m) : Mirrors f (.going w) (.going m)
  | ended (o : Outcome) {w : Walk ω} {m : Machine ω} (same : w.Mirrors f m) :
    Mirrors f (.ended o w) (.ended o m)

theorem Progress.Mirrors.of_ended {o : Outcome} {k : Walk ω} {q : TurtleGraphics.Progress ω}
    (goes : Progress.Mirrors f (.ended o k) q) : ∃ m, q = .ended o m ∧ k.Mirrors f m := by
  cases goes with
  | ended _ same => exact ⟨_, rfl, same⟩

def Progress.visible : Progress ω → Except Forest.Error (Option Outcome × Bindings Float × ω)
  | .going w => .ok (none, w.globals, w.host)
  | .ended o w => .ok (some o, w.globals, w.host)
  | .broken e => .error e

theorem Progress.Mirrors.visible {p : Progress ω} {q : TurtleGraphics.Progress ω}
    (goes : Progress.Mirrors f p q) : p.visible = .ok q.visible := by
  cases goes with
  | going same | ended _ same =>
    simp only [Progress.visible, TurtleGraphics.Progress.visible, same.globals, same.host]

theorem leaves_of_meets {tasks : List Task} {others : List TurtleGraphics.Task}
    (same : List.Forall₂ f.Meets tasks others) : leaves tasks = TurtleGraphics.leaves others := by
  induction same with
  | nil => rfl
  | cons first _ ih =>
    cases first with
    | visit | times | loop => exact ih
    | leave => exact congrArg (· + 1) ih

namespace Mirrors

variable {w : Walk ω} {m : Machine ω}

theorem memory (same : w.Mirrors f m) :
    w.memory = { m with tasks := [], procedures := .empty } := by
  simp only [Walk.memory, same.globals, same.frames, same.host]

theorem store (same : w.Mirrors f m) (name : String) (x : Float) :
    (w.store name x).Mirrors f (m.store name x) := by
  obtain ⟨globals, frames⟩ := m.store_programless name x
  refine ⟨?_, ?_, ?_, ?_, ?_⟩
  · rw [Machine.store_tasks]
    exact same.tasks
  · simp only [Walk.store, same.memory, globals]
  · simp only [Walk.store, same.memory, frames]
  · rw [Machine.store_procedures]
    exact same.procedures
  · rw [Machine.store_host]
    exact same.host

theorem todo (same : w.Mirrors f m) {tasks : List Task} {others : List TurtleGraphics.Task}
    (meets : List.Forall₂ f.Meets tasks others) : (w.todo tasks).Mirrors f (m.todo others) :=
  ⟨List.rel_append meets same.tasks, same.globals, same.frames, same.procedures, same.host⟩

variable [Host ω]

theorem view (same : w.Mirrors f m) : w.view = m.view := by
  obtain ⟨tasks, globals, frames, handles, host⟩ := w
  obtain ⟨others, _, _, trees, _⟩ := m
  obtain ⟨meets, rfl, rfl, known, rfl⟩ := same
  rfl

theorem perform (same : w.Mirrors f m) (e : Effect) : (w.perform e).Mirrors f (m.perform e) :=
  ⟨same.tasks, same.globals, same.frames, same.procedures, congrArg (Host.perform e) same.host⟩

theorem settle (same : w.Mirrors f m) : w.settle.Mirrors f m.settle := by
  unfold Walk.settle Machine.settle
  rw [same.host]
  rcases Host.settle m.host with ⟨_ | _ | _, host⟩
  · exact .going ⟨same.tasks, same.globals, same.frames, same.procedures, rfl⟩
  · exact .ended _ ⟨same.tasks, same.globals, same.frames, same.procedures, rfl⟩
  · exact .ended _ ⟨same.tasks, same.globals, same.frames, same.procedures, rfl⟩

theorem carryOut (same : w.Mirrors f m) {d : Deed} {d' : TurtleGraphics.Deed}
    (does : f.Does d d') : (w.carryOut d).Mirrors f (m.carryOut d') := by
  cases does with
  | order o => exact (same.perform (.order o)).settle
  | store name x => exact .going ((same.store name x).perform (.store name x))
  | push meets => exact .going (same.todo meets)
  | @define handles trees _ _ known there =>
    have noted : Mirrors f { w with procedures := handles } { m with procedures := trees } :=
      ⟨same.tasks, same.globals, same.frames, known, same.host⟩
    exact .going (noted.todo (.cons (.visit there) .nil))
  | call frame there =>
    obtain ⟨tasks, globals, frames, procedures, host⟩ :=
      same.todo (.cons (.visit there) (.cons .leave .nil))
    exact .going ⟨tasks, globals, congrArg (frame :: ·) frames, procedures, host⟩

theorem attempt (same : w.Mirrors f m)
    {find : Bindings Nat → View → Except Fault Deed}
    {find' : Bindings (Tree Node) → View → Except RuntimeError TurtleGraphics.Deed}
    (agree : ∀ handles trees v, f.Knows handles trees →
      Agrees f.Does (find handles v) (find' trees v)) :
    (w.attempt find).Mirrors f (m.attempt find') := by
  have found := agree _ _ m.view same.procedures
  unfold Walk.attempt Machine.attempt
  rw [same.view]
  generalize find w.procedures m.view = r, find' m.procedures m.view = s at found ⊢
  cases found with
  | ok does => exact same.carryOut does
  | error e => exact .ended _ same

theorem proceed (same : w.Mirrors f m)
    {find : Bindings Nat → View → Except Fault Deed}
    {find' : Bindings (Tree Node) → View → Except RuntimeError TurtleGraphics.Deed}
    (agree : ∀ handles trees v, f.Knows handles trees →
      Agrees f.Does (find handles v) (find' trees v)) :
    (w.proceed find).Mirrors f (m.proceed find') := by
  unfold Walk.proceed Machine.proceed
  rw [same.host]
  rcases Host.poll m.host with ⟨_ | _, host⟩
  · have looked : Mirrors f { w with host } { m with host } :=
      ⟨same.tasks, same.globals, same.frames, same.procedures, rfl⟩
    exact looked.attempt agree
  · exact .ended _ ⟨same.tasks, same.globals, same.frames, same.procedures, rfl⟩

theorem step (same : w.Mirrors f m) : (w.step f).Mirrors f m.step := by
  obtain ⟨tasks, globals, frames, handles, host⟩ := w
  obtain ⟨others, _, _, trees, _⟩ := m
  obtain ⟨meets, rfl, rfl, known, rfl⟩ := same
  cases meets with
  | nil => exact .ended _ ⟨.nil, rfl, rfl, known, rfl⟩
  | @cons _ _ tasks others first rest =>
    have later : Mirrors f ⟨tasks, globals, frames, handles, host⟩
        (⟨others, globals, frames, trees, host⟩ : Machine ω) := ⟨rest, rfl, rfl, known, rfl⟩
    cases first with
    | visit there => exact later.proceed fun _ _ v known => Forest.deed_agrees known v there
    | times count there =>
      cases count with
      | zero => exact .going later
      | succ count =>
        exact .going (later.todo (.cons (.visit there) (.cons (.times count there) .nil)))
    | loop condition body =>
      exact later.proceed fun _ _ v _ => Forest.round_agrees v condition body
    | leave => exact .going ⟨rest, rfl, rfl, known, rfl⟩

theorem steps (same : w.Mirrors f m) (n : Nat) : (w.steps f n).Mirrors f (m.steps n) := by
  induction n generalizing w m with
  | zero => exact .going same
  | succ n ih =>
    have next := same.step
    unfold Walk.steps Machine.steps
    generalize w.step f = p, m.step = q at next ⊢
    cases next with
    | going same => exact ih same
    | ended o same => exact .ended o same

end Mirrors

/-- A run that goes with a balanced one has nothing left when it has given up what is to do. -/
theorem Mirrors.unwound {w : Walk ω} {m : Machine ω} (same : w.Mirrors f m)
    (balanced : m.Balanced) : w.unwound.Mirrors f m.finish := by
  have size : m.frames.length = TurtleGraphics.leaves m.tasks := balanced
  have none : w.frames.drop (leaves w.tasks) = [] := by
    rw [same.frames, leaves_of_meets same.tasks, ← size, List.drop_length]
  exact ⟨.nil, same.globals, none, same.procedures, same.host⟩

variable [Host ω]

theorem start_mirrors (w : Walk ω) {root : Nat} {t : Tree Node} (there : f.At root t) :
    (w.start root).Mirrors f (w.memory.start t) :=
  ⟨.cons (.visit there) .nil, rfl, rfl, Forest.knows_empty, rfl⟩

structure Safe (f : Forest Node) (root limit : Nat) (w : Walk ω) : Prop where
  /-- the tree at the node makes a program, and the walk goes with its run -/
  program : ∃ p, Program.at? f root = .ok p ∧
    (w.run f limit root).Mirrors f (w.memory.run limit p.tree)
  unbroken : ∀ e, w.run f limit root ≠ .broken e
  ends : ∀ o k, w.run f limit root = .ended o k → o ≠ .held →
    o = .finished ∨ o = .stopped ∨ ∃ e, o = .failed e
  frames : ∀ o k, w.run f limit root = .ended o k → k.frames = []
  /-- a run that finishes has nothing to give up -/
  finished : ∀ k, (w.start root).steps f limit = .ended .finished k → k.tasks = [] ∧ k.frames = []

theorem steps_mirrors (w : Walk ω) {root : Nat} {t : Tree Node} (there : f.At root t)
    (limit : Nat) : ((w.start root).steps f limit).Mirrors f ((w.memory.start t).steps limit) ∧
      ((w.memory.start t).steps limit).Balanced :=
  ⟨(w.start_mirrors there).steps limit, Machine.steps_balanced (m := w.memory.start t) rfl limit⟩

theorem run_mirrors (w : Walk ω) {root : Nat} {t : Tree Node} (there : f.At root t) (limit : Nat) :
    (w.run f limit root).Mirrors f (w.memory.run limit t) := by
  obtain ⟨goes, balanced⟩ := w.steps_mirrors there limit
  unfold Walk.run Machine.run
  generalize (w.start root).steps f limit = p, (w.memory.start t).steps limit = q
    at goes balanced ⊢
  cases goes with
  | going same => exact .going same
  | ended o same => exact .ended o (same.unwound balanced.1)

/-- Whatever edits have made the forest, a run of what is below any of its nodes is safe. -/
theorem run_safe (es : List (Forest.Edit Node)) {root : Nat}
    (inside : root < (Forest.empty.afterAll es).size) (w : Walk ω) (limit : Nat) :
    Safe (Forest.empty.afterAll es) root limit w := by
  -- below every node of a sound forest there is a tree, so a walk along it lacks no node
  have sound : (Forest.empty.afterAll es).Sound := Forest.sound_empty.afterAll es
  obtain ⟨t, there⟩ := sound.exists_tree inside
  obtain ⟨p, made, rfl⟩ := Program.at?_of_tree there
  have goes := w.run_mirrors there limit
  obtain ⟨steps, balanced⟩ := w.steps_mirrors there limit
  refine ⟨⟨p, made, goes⟩, ?_, ?_, ?_, ?_⟩
  · intro e broken
    rw [broken] at goes
    cases goes
  · intro o k _ other
    cases o with
    | finished => exact .inl rfl
    | stopped => exact .inr (.inl rfl)
    | failed e => exact .inr (.inr ⟨e, rfl⟩)
    | held => exact absurd rfl other
  · intro o k ended
    rw [ended] at goes
    obtain ⟨m, ran, same⟩ := goes.of_ended
    rw [same.frames]
    exact Machine.frames_of_run ran
  · intro k ended
    rw [ended] at steps
    obtain ⟨m, ran, same⟩ := steps.of_ended
    rw [ran] at balanced
    have done : k.tasks = [] := List.forall₂_nil_right_iff.mp (balanced.2 rfl ▸ same.tasks)
    refine ⟨done, List.length_eq_zero_iff.mp ?_⟩
    have size : m.frames.length = TurtleGraphics.leaves m.tasks := balanced.1
    rw [same.frames, size, ← leaves_of_meets same.tasks, done]
    rfl

/-- A program that no text stands for: a block of a program node without children and a definition
in the place of a command. -/
theorem run_safe_malformed :
    let es : List (Forest.Edit Node) := [.leaf (.ofGroup .program),
      .leaf (.ofToken ⟨.keyword, "def"⟩), .node (.ofGroup .block) [0, 1]]
    let w : Walk (Stage Sketch) :=
      ⟨[], .empty, [], .empty, .quiet .blank (.new Pace.fastest false)⟩
    2 < (Forest.empty.afterAll es).size ∧ Safe (Forest.empty.afterAll es) 2 9 w := by
  intro es w
  have inside : 2 < (Forest.empty.afterAll es).size := by decide
  exact ⟨inside, run_safe es inside w 9⟩

end Walk

end TurtleGraphics
