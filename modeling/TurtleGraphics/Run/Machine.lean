import TurtleGraphics.Run.Bindings
import TurtleGraphics.Run.Host
import TurtleGraphics.Run.Value

/-!
Running a program, one step at a time. What is left to do is a list of tasks. A step takes the first
of them: it visits a node, goes round a loop or leaves a procedure. The switches are looked at when
a node is visited, before each round of a `while` loop and after each drawing command.
-/

namespace TurtleGraphics

inductive Task
  | visit (t : Tree Node)
  /-- visits a node so many times -/
  | times (count : Nat) (body : Tree Node)
  /-- visits a node as long as a condition holds -/
  | loop (condition body : Tree Node)
  /-- leaves a procedure -/
  | leave

inductive Deed
  | order (order : Order)
  | store (name : String) (value : Float)
  /-- goes on with further tasks -/
  | push (tasks : List Task)
  | define (procedures : Bindings (Tree Node)) (block : Tree Node)
  | call (frame : Bindings Float) (body : Tree Node)

structure Machine (ω : Type) where
  tasks : List Task
  globals : Bindings Float
  frames : List (Bindings Float)
  procedures : Bindings (Tree Node)
  host : ω

inductive Outcome
  | finished
  | stopped
  | failed (e : RuntimeError)
  /-- the turtle is held for ever -/
  | held
deriving DecidableEq

inductive Progress (ω : Type)
  | going (m : Machine ω)
  | ended (o : Outcome) (m : Machine ω)

namespace Machine

variable {ω : Type}

def new (host : ω) : Machine ω :=
  ⟨[], .empty, [], .empty, host⟩

/-- A name is looked up among the variables of the procedure being called, then among the global
ones. -/
def fetch (m : Machine ω) (name : String) : Option Float :=
  match m.frames with
  | [] => m.globals.get? name
  | frame :: _ => (frame.get? name).or (m.globals.get? name)

/-- A procedure changes a variable of its own, else a global one, and else makes one of its own. -/
def store (m : Machine ω) (name : String) (value : Float) : Machine ω :=
  match m.frames with
  | [] => { m with globals := m.globals.put name value }
  | frame :: callers =>
    if frame.has name || !m.globals.has name then
      { m with frames := frame.put name value :: callers }
    else { m with globals := m.globals.put name value }

theorem fetch_store (m : Machine ω) (name : String) (value : Float) :
    (m.store name value).fetch name = some value := by
  obtain ⟨tasks, globals, frames, procedures, host⟩ := m
  cases frames with
  | nil => simp [store, fetch, Bindings.get?_put]
  | cons frame callers =>
    simp only [store]
    split
    · simp [fetch, Bindings.get?_put]
    · rename_i h
      simp only [Bool.or_eq_true, not_or, Bool.not_eq_true, Bindings.has,
        Option.isSome_eq_false_iff, Option.isNone_iff_eq_none] at h
      simp [fetch, Bindings.get?_put, h.1]

/-- Notes the definitions among some nodes. Of two with one name the later counts. -/
def defineAll (procedures : Bindings (Tree Node)) :
    List (Tree Node) → Except RuntimeError (Bindings (Tree Node))
  | [] => .ok procedures
  | .node n ts :: rest => do
    if n.kind ≠ .definition then throw (.malformedNode n.text .notDefinition)
    let (.node h hs, _) ← twoChildren n ts
    let (name, _) ← twoChildren h hs
    defineAll (procedures.put name.value.text (.node n ts)) rest

def bind (v : View) : Bindings Float → List (Tree Node) → List (Tree Node) →
    Except RuntimeError (Bindings Float)
  | frame, p :: ps, a :: as => do
    let x ← v.evaluate a
    bind v (frame.put p.value.text x) ps as
  | frame, _, _ => .ok frame

/-- The variables and the body for a call. Its arguments are counted before any is evaluated. -/
def prepare (procedures : Bindings (Tree Node)) (v : View) (n : Node) (ts : List (Tree Node)) :
    Except RuntimeError (Bindings Float × Tree Node) := do
  let (name, arguments) ← twoChildren n ts
  let name := name.value.text
  match procedures.get? name with
  | none => throw (.undefinedProcedure name)
  | some (.node d ds) =>
    let (.node h hs, body) ← twoChildren d ds
    let (_, parameters) ← twoChildren h hs
    let ps := parameters.children
    let as := arguments.children
    if ps.length ≠ as.length then throw (.arityMismatch name ps.length as.length)
    return (← bind v .empty ps as, body)

def deed (procedures : Bindings (Tree Node)) (v : View) : Tree Node → Except RuntimeError Deed
  | .node n ts =>
    match n.kind with
    | .program => do
      let (block, list) ← twoChildren n ts
      return .define (← defineAll procedures list.children) block
    | .block => .ok (.push (ts.map .visit))
    | .assign => do
      let (target, expression) ← twoChildren n ts
      if target.value.kind ≠ .name then throw (.malformedNode "set" .target)
      return .store target.value.text (← v.evaluate expression)
    | .times => do
      let (count, body) ← twoChildren n ts
      return .push [.times (Decimal.count (← v.evaluate count)) body]
    | .loop => do
      let (condition, body) ← twoChildren n ts
      return .push [.loop condition body]
    | .branch => match ts with
      | [condition, body] => do
        return .push (if ← v.holds condition then [.visit body] else [])
      | [condition, body, otherwise] => do
        return .push [.visit (if ← v.holds condition then body else otherwise)]
      | ts => .error (.malformedNode "if" (.branchCount ts.length))
    | .call => do
      let (frame, body) ← prepare procedures v n ts
      return .call frame body
    | _ => match v.order? n ts with
      | some r => r.map .order
      | none => .error (.unknownCommand n.text)

def round (v : View) (condition body : Tree Node) : Except RuntimeError Deed := do
  return .push (if ← v.holds condition then [.visit body, .loop condition body] else [])

def todo (m : Machine ω) (tasks : List Task) : Machine ω :=
  { m with tasks := tasks ++ m.tasks }

def finish (m : Machine ω) : Machine ω :=
  { m with tasks := [], frames := [] }

variable [Host ω]

def view (m : Machine ω) : View :=
  ⟨m.fetch, Host.x m.host, Host.y m.host⟩

def perform (m : Machine ω) (e : Effect) : Machine ω :=
  { m with host := Host.perform e m.host }

def settle (m : Machine ω) : Progress ω :=
  match Host.settle m.host with
  | (.go, host) => .going { m with host }
  | (.stop, host) => .ended .stopped { m with host }
  | (.held, host) => .ended .held { m with host }

def carryOut (m : Machine ω) : Deed → Progress ω
  | .order o => (m.perform (.order o)).settle
  | .store name x => .going ((m.store name x).perform (.store name x))
  | .push tasks => .going (m.todo tasks)
  | .define procedures block => .going ({ m with procedures }.todo [.visit block])
  | .call frame body => .going { m.todo [.visit body, .leave] with frames := frame :: m.frames }

def attempt (m : Machine ω)
    (find : Bindings (Tree Node) → View → Except RuntimeError Deed) : Progress ω :=
  match find m.procedures m.view with
  | .ok d => m.carryOut d
  | .error e => .ended (.failed e) m

/-- Looks at the switches first, and goes on if no stop is asked for. -/
def proceed (m : Machine ω)
    (find : Bindings (Tree Node) → View → Except RuntimeError Deed) : Progress ω :=
  match Host.poll m.host with
  | (true, host) => .ended .stopped { m with host }
  | (false, host) => { m with host }.attempt find

def step (m : Machine ω) : Progress ω :=
  match m.tasks with
  | [] => .ended .finished m
  | .visit t :: tasks => { m with tasks }.proceed fun procedures v => deed procedures v t
  | .times 0 _ :: tasks => .going { m with tasks }
  | .times (count + 1) body :: tasks =>
    .going { m with tasks := .visit body :: .times count body :: tasks }
  | .loop condition body :: tasks =>
    { m with tasks }.proceed fun _ v => round v condition body
  | .leave :: tasks => .going { m with tasks, frames := m.frames.tail }

def steps : Nat → Machine ω → Progress ω
  | 0, m => .going m
  | n + 1, m => match m.step with
    | .going m => m.steps n
    | .ended o m => .ended o m

/-- A run begins with no variables and no procedures. -/
def start (m : Machine ω) (t : Tree Node) : Machine ω :=
  ⟨[.visit t], .empty, [], .empty, Host.start m.host⟩

def run (limit : Nat) (m : Machine ω) (t : Tree Node) : Progress ω :=
  match (m.start t).steps limit with
  | .going m => .going m
  | .ended o m => .ended o m.finish

end Machine

end TurtleGraphics
