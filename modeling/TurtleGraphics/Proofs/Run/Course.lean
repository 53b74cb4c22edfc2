import TurtleGraphics.Proofs.Run.Call
import TurtleGraphics.Proofs.Run.Log

/-!
The course of what there is to do, told by the parts of a program rather than by the steps of a run:
which commands are done in it, one after another, and whether it comes to its end or breaks off with
an error. A command that is refused does nothing, and after it nothing is done.
-/

namespace TurtleGraphics

structure Done where
  command : Tree Node
  effect : Effect

inductive Work
  | command (t : Tree Node)
  /-- a command first -/
  | before (t : Tree Node) (more : Work)
  | sequence (ts : List (Tree Node))
  | repeats (count : Nat) (body : Tree Node)
  /-- as long as a condition holds -/
  | rounds (condition body : Tree Node)

def Work.tasks : Work → List Task
  | command t => [.visit t]
  | before t more => .visit t :: more.tasks
  | sequence ts => ts.map .visit
  | repeats count body => [.times count body]
  | rounds condition body => [.loop condition body]

namespace Machine

variable {ω : Type}

def doing (m : Machine ω) (tasks : List Task) : Machine ω :=
  { m with tasks }

inductive Assigns (m : Machine ω) (name : String) (x : Float) : Machine ω → Prop
  | outside (frames : m.frames = []) :
    Assigns m name x { m with globals := m.globals.put name x }
  | own {frame : Bindings Float} {callers : List (Bindings Float)} (y : Float)
    (frames : m.frames = frame :: callers) (known : frame.get? name = some y) :
    Assigns m name x { m with frames := frame.put name x :: callers }
  | onlyGlobal {frame : Bindings Float} {callers : List (Bindings Float)} (y : Float)
    (frames : m.frames = frame :: callers) (unknown : frame.get? name = none)
    (known : m.globals.get? name = some y) :
    Assigns m name x { m with globals := m.globals.put name x }
  | new {frame : Bindings Float} {callers : List (Bindings Float)}
    (frames : m.frames = frame :: callers) (unknown : frame.get? name = none)
    (nowhere : m.globals.get? name = none) :
    Assigns m name x { m with frames := frame.put name x :: callers }

theorem Assigns.eq_store {m k : Machine ω} {name : String} {x : Float}
    (assigns : m.Assigns name x k) : k = m.store name x := by
  cases assigns with
  | outside frames => simp only [store, frames]
  | own y frames known => simp [store, frames, Bindings.has, known]
  | onlyGlobal y frames unknown known => simp [store, frames, Bindings.has, unknown, known]
  | new frames unknown nowhere => simp [store, frames, Bindings.has, unknown, nowhere]

theorem assigns_store (m : Machine ω) (name : String) (x : Float) :
    m.Assigns name x (m.store name x) := by
  have given : ∃ k, m.Assigns name x k := by
    cases frames : m.frames with
    | nil => exact ⟨_, .outside frames⟩
    | cons frame callers =>
      cases mine : frame.get? name with
      | some y => exact ⟨_, .own y frames mine⟩
      | none =>
        cases global : m.globals.get? name with
        | some y => exact ⟨_, .onlyGlobal y frames mine global⟩
        | none => exact ⟨_, .new frames mine global⟩
  obtain ⟨k, assigns⟩ := given
  exact assigns.eq_store ▸ assigns

variable [Host ω]

inductive Looks (m : Machine ω) : Machine ω → Prop
  | intro {host : ω} (polled : Host.poll m.host = (false, host)) : Looks m { m with host }

/-- The course of what there is to do: the commands done, the error if it breaks off, and the
machine in the end. What else the machine has to do does not matter. -/
inductive Does : Machine ω → Work → List Done → Option RuntimeError → Machine ω → Prop
  /-- an operand, a count, a condition, a name or the number of arguments is wrong -/
  | refused {m l : Machine ω} {t : Tree Node} {e : RuntimeError} (looks : m.Looks l)
    (found : deed l.procedures l.view t = .error e) : Does m (.command t) [] (some e) l
  | order {m l : Machine ω} {t : Tree Node} {o : Order} {host : ω} (looks : m.Looks l)
    (found : deed l.procedures l.view t = .ok (.order o))
    (settled : Host.settle (Host.perform (.order o) l.host) = (.go, host)) :
    Does m (.command t) [⟨t, .order o⟩] none { l with host }
  | assign {m l k : Machine ω} {t : Tree Node} {name : String} {x : Float} (looks : m.Looks l)
    (found : deed l.procedures l.view t = .ok (.store name x)) (assigns : l.Assigns name x k) :
    Does m (.command t) [⟨t, .store name x⟩] none (k.perform (.store name x))
  | program {m l k : Machine ω} {t block : Tree Node} {procedures : Bindings (Tree Node)}
    {done : List Done} {r : Option RuntimeError} (looks : m.Looks l)
    (found : deed l.procedures l.view t = .ok (.define procedures block))
    (commands : Does { l with procedures } (.command block) done r k) :
    Does m (.command t) done r k
  /-- the procedure is left even if the course breaks off in it -/
  | call {m l k : Machine ω} {t body : Tree Node} {frame : Bindings Float} {done : List Done}
    {r : Option RuntimeError} (looks : m.Looks l)
    (found : deed l.procedures l.view t = .ok (.call frame body))
    (inside : Does { l with frames := frame :: l.frames } (.command body) done r k) :
    Does m (.command t) done r { k with frames := k.frames.tail }
  | block {m l k : Machine ω} {n : Node} {ts : List (Tree Node)} {done : List Done}
    {r : Option RuntimeError} (kind : n.kind = .block) (looks : m.Looks l)
    (commands : Does l (.sequence ts) done r k) : Does m (.command (.node n ts)) done r k
  | times {m l k : Machine ω} {n : Node} {count body : Tree Node} {x : Float} {done : List Done}
    {r : Option RuntimeError} (kind : n.kind = .times) (looks : m.Looks l)
    (value : l.view.evaluate count = .ok x)
    (rounds : Does l (.repeats (Decimal.count x) body) done r k) :
    Does m (.command (.node n [count, body])) done r k
  | loop {m l k : Machine ω} {n : Node} {condition body : Tree Node} {done : List Done}
    {r : Option RuntimeError} (kind : n.kind = .loop) (looks : m.Looks l)
    (rounds : Does l (.rounds condition body) done r k) :
    Does m (.command (.node n [condition, body])) done r k
  | branch {m l k : Machine ω} {n : Node} {condition body : Tree Node} {b : Bool}
    {done : List Done} {r : Option RuntimeError} (kind : n.kind = .branch) (looks : m.Looks l)
    (value : l.view.holds condition = .ok b)
    (chosen : Does l (.sequence (if b then [body] else [])) done r k) :
    Does m (.command (.node n [condition, body])) done r k
  | branchElse {m l k : Machine ω} {n : Node} {condition body otherwise : Tree Node} {b : Bool}
    {done : List Done} {r : Option RuntimeError} (kind : n.kind = .branch) (looks : m.Looks l)
    (value : l.view.holds condition = .ok b)
    (chosen : Does l (.command (if b then body else otherwise)) done r k) :
    Does m (.command (.node n [condition, body, otherwise])) done r k
  | before {m l k : Machine ω} {t : Tree Node} {more : Work} {done others : List Done}
    {r : Option RuntimeError} (first : Does m (.command t) done none l)
    (rest : Does l more others r k) : Does m (.before t more) (done ++ others) r k
  /-- what would come next is not done -/
  | broken {m k : Machine ω} {t : Tree Node} {more : Work} {done : List Done} {e : RuntimeError}
    (first : Does m (.command t) done (some e) k) : Does m (.before t more) done (some e) k
  | nil {m : Machine ω} : Does m (.sequence []) [] none m
  | cons {m k : Machine ω} {t : Tree Node} {ts : List (Tree Node)} {done : List Done}
    {r : Option RuntimeError} (all : Does m (.before t (.sequence ts)) done r k) :
    Does m (.sequence (t :: ts)) done r k
  | zero {m : Machine ω} {body : Tree Node} : Does m (.repeats 0 body) [] none m
  | succ {m k : Machine ω} {count : Nat} {body : Tree Node} {done : List Done}
    {r : Option RuntimeError} (all : Does m (.before body (.repeats count body)) done r k) :
    Does m (.repeats (count + 1) body) done r k
  | unclear {m l : Machine ω} {condition body : Tree Node} {e : RuntimeError} (looks : m.Looks l)
    (value : l.view.holds condition = .error e) : Does m (.rounds condition body) [] (some e) l
  | last {m l : Machine ω} {condition body : Tree Node} (looks : m.Looks l)
    (value : l.view.holds condition = .ok false) : Does m (.rounds condition body) [] none l
  | round {m l k : Machine ω} {condition body : Tree Node} {done : List Done}
    {r : Option RuntimeError} (looks : m.Looks l) (value : l.view.holds condition = .ok true)
    (all : Does l (.before body (.rounds condition body)) done r k) :
    Does m (.rounds condition body) done r k

theorem Looks.tasks {m l : Machine ω} (looks : m.Looks l) : l.tasks = m.tasks := by
  cases looks
  rfl

theorem Looks.frames {m l : Machine ω} (looks : m.Looks l) : l.frames = m.frames := by
  cases looks
  rfl

namespace Does

variable {m k : Machine ω} {w : Work} {done : List Done} {r : Option RuntimeError}

theorem tasks (does : Does m w done r k) : k.tasks = m.tasks := by
  induction does with
  | refused looks | order looks | unclear looks | last looks => exact looks.tasks
  | assign looks _ assigns =>
    rw [assigns.eq_store]
    exact (store_tasks ..).trans looks.tasks
  | program looks _ _ ih | call looks _ _ ih | block _ looks _ ih | times _ looks _ _ ih
  | loop _ looks _ ih | branch _ looks _ _ ih | branchElse _ looks _ _ ih
  | round looks _ _ ih => exact ih.trans looks.tasks
  | before _ _ first rest => exact rest.trans first
  | nil | zero => rfl
  | broken _ ih | cons _ ih | succ _ ih => exact ih

/-- Every procedure that is called in the course is left in it too, even if it breaks off. -/
theorem frames (does : Does m w done r k) : k.frames.length = m.frames.length := by
  induction does with
  | refused looks | order looks | unclear looks | last looks => rw [looks.frames]
  | assign looks _ assigns =>
    rw [assigns.eq_store]
    exact (length_frames_store ..).trans (by rw [looks.frames])
  | call looks _ _ ih =>
    rw [List.length_tail, ih, looks.frames]
    rfl
  | program looks _ _ ih | block _ looks _ ih | times _ looks _ _ ih | loop _ looks _ ih
  | branch _ looks _ _ ih | branchElse _ looks _ _ ih | round looks _ _ ih => rw [ih, looks.frames]
  | before _ _ first rest => exact rest.trans first
  | nil | zero => rfl
  | broken _ ih | cons _ ih | succ _ ih => exact ih

/-- A machine that has nothing else to do, and calls no procedure, has nothing left in the end. -/
theorem finish_eq (does : Does m w done r k) (free : m.finish = m) : k.finish = k := by
  have same := does.tasks
  have size := does.frames
  rw [← free] at same size
  obtain ⟨tasks, globals, frames, procedures, host⟩ := k
  obtain rfl : tasks = [] := same
  obtain rfl : frames = [] := List.length_eq_zero_iff.mp size
  rfl

end Does

end Machine

/-- The log of a course has the effects of the commands that are done in it, in their order. -/
theorem Machine.Does.effects {ω : Type} [Host ω] {m k : Machine (Logged ω)} {w : Work}
    {done : List Done} {r : Option RuntimeError} (does : Does m w done r k) :
    k.host.effects = m.host.effects ++ done.map (·.effect) := by
  have looked {m l : Machine (Logged ω)} (looks : m.Looks l) :
      l.host.effects = m.host.effects := by
    cases looks with
    | intro polled => exact congrArg (·.2.effects) polled.symm
  induction does with
  | refused looks | unclear looks | last looks => simp [looked looks]
  | order looks _ settled =>
    have log := congrArg (·.2.effects) settled
    exact log.symm.trans (congrArg (· ++ _) (looked looks))
  | @assign m l k t name x looks _ assigns =>
    have log : k.host.effects = l.host.effects := by rw [assigns.eq_store, store_host]
    exact congrArg (· ++ [Effect.store name x]) (log.trans (looked looks))
  | program looks _ _ ih | call looks _ _ ih | block _ looks _ ih | times _ looks _ _ ih
  | loop _ looks _ ih | branch _ looks _ _ ih | branchElse _ looks _ _ ih
  | round looks _ _ ih => simp only [ih, looked looks]
  | before _ _ first rest => simp [rest, first]
  | nil | zero => simp
  | broken _ ih | cons _ ih | succ _ ih => exact ih

end TurtleGraphics
