import TurtleGraphics.Forest
import TurtleGraphics.Run.Machine

/-!
A run that reads its program off the forest, node by node. What is left to do and the procedures are
kept as handles, and asking for a node that is not there breaks the run.
-/

namespace TurtleGraphics

inductive Fault
  /-- a node is asked for that is not there -/
  | access (e : Forest.Error)
  | failure (e : RuntimeError)

def Fault.lift {α : Type} (r : Except RuntimeError α) : Except Fault α :=
  r.mapError .failure

inductive Walk.Task
  | visit (h : Nat)
  | times (count : Nat) (body : Nat)
  | loop (condition body : Nat)
  | leave

inductive Walk.Deed
  | order (order : Order)
  | store (name : String) (value : Float)
  | push (tasks : List Walk.Task)
  | define (procedures : Bindings Nat) (block : Nat)
  | call (frame : Bindings Float) (body : Nat)

namespace Forest

variable (f : Forest Node)

def see (h : Nat) : Except Fault (Node × List Nat) :=
  match f.entry h with
  | .ok e => .ok (e.value, e.children)
  | .error e => .error (.access e)

def onlyBelow (h : Nat) : Except Fault Nat := do
  let (n, hs) ← f.see h
  match hs with
  | [a] => return a
  | hs => throw (.failure (.malformedNode n.text (.childCount 1 hs.length)))

def twoBelow (h : Nat) : Except Fault (Nat × Nat) := do
  let (n, hs) ← f.see h
  match hs with
  | [a, b] => return (a, b)
  | hs => throw (.failure (.malformedNode n.text (.childCount 2 hs.length)))

def threeBelow (h : Nat) : Except Fault (Nat × Nat × Nat) := do
  let (n, hs) ← f.see h
  match hs with
  | [a, b, c] => return (a, b, c)
  | hs => throw (.failure (.malformedNode n.text (.childCount 3 hs.length)))

def evaluateWithin (v : View) : Nat → Nat → Except Fault Float
  | 0, h => .error (.access (.noSuchNode f.size h))
  | depth + 1, h => do
    let (n, hs) ← f.see h
    match n.kind, hs with
    | .number, [] => Fault.lift (literalValue n.text)
    | .name, [] => match v.fetch n.text with
      | some x => return x
      | none => throw (.failure (.undefinedVariable n.text))
    | .getX, [] => return v.x
    | .getY, [] => return v.y
    | .add, [a] => evaluateWithin v depth a
    | .sub, [a] => return -(← evaluateWithin v depth a)
    | .add, [a, b] => return (← evaluateWithin v depth a) + (← evaluateWithin v depth b)
    | .sub, [a, b] => return (← evaluateWithin v depth a) - (← evaluateWithin v depth b)
    | .mul, [a, b] => return (← evaluateWithin v depth a) * (← evaluateWithin v depth b)
    | .div, [a, b] => do
      let dividend ← evaluateWithin v depth a
      let divisor ← evaluateWithin v depth b
      if divisor == 0 then throw (.failure .divisionByZero)
      return dividend / divisor
    | .number, _ | .name, _ | .getX, _ | .getY, _ =>
      throw (.failure (.malformedNode n.text .valueWithChildren))
    | .add, hs | .sub, hs | .mul, hs | .div, hs =>
      throw (.failure (.malformedNode n.text (.operandCount hs.length)))
    | _, _ => throw (.failure (.malformedNode n.text .notExpression))

/-- A way down passes no node twice, so it is no longer than there are nodes. -/
def evaluate (v : View) (h : Nat) : Except Fault Float :=
  f.evaluateWithin v (f.size + 1) h

def holds (v : View) (h : Nat) : Except Fault Bool := do
  let (n, _) ← f.see h
  match View.comparison? n.kind with
  | none => throw (.failure (.malformedNode n.text .notComparison))
  | some compare =>
    let (a, b) ← f.twoBelow h
    return compare (← f.evaluate v a) (← f.evaluate v b)

def operand (v : View) (h : Nat) : Except Fault Float := do
  f.evaluate v (← f.onlyBelow h)

def channel (v : View) (h : Nat) : Except Fault UInt32 := do
  Fault.lift (View.channelOf (← f.evaluate v h))

def order? (v : View) (n : Node) (h : Nat) : Option (Except Fault Order) :=
  match n.kind with
  | .forward => some ((f.operand v h).map .forward)
  | .left => some ((f.operand v h).map .turnLeft)
  | .right => some ((f.operand v h).map .turnRight)
  | .face => some ((f.operand v h).map .face)
  | .home => some (.ok .home)
  | .jump => some do
    let (a, b) ← f.twoBelow h
    let x ← f.evaluate v a
    let y ← f.evaluate v b
    return .jumpTo x y
  | .penUp => some (.ok .penUp)
  | .penDown => some (.ok .penDown)
  | .namedColor c => some (.ok (.colorName c))
  | .color => some do
    let (a, b, c) ← f.threeBelow h
    let red ← f.channel v a
    let green ← f.channel v b
    let blue ← f.channel v c
    return .colorRgb (View.pack red green blue)
  | _ => none

def defineAll (procedures : Bindings Nat) : List Nat → Except Fault (Bindings Nat)
  | [] => return procedures
  | d :: rest => do
    let (n, _) ← f.see d
    if n.kind ≠ .definition then throw (.failure (.malformedNode n.text .notDefinition))
    let (header, _) ← f.twoBelow d
    let (name, _) ← f.twoBelow header
    let (spelling, _) ← f.see name
    defineAll (procedures.put spelling.text d) rest

def bindAll (v : View) : Bindings Float → List Nat → List Nat → Except Fault (Bindings Float)
  | frame, p :: ps, a :: as => do
    let x ← f.evaluate v a
    let (n, _) ← f.see p
    bindAll v (frame.put n.text x) ps as
  | frame, _, _ => return frame

def prepare (procedures : Bindings Nat) (v : View) (h : Nat) :
    Except Fault (Bindings Float × Nat) := do
  let (name, arguments) ← f.twoBelow h
  let (n, _) ← f.see name
  match procedures.get? n.text with
  | none => throw (.failure (.undefinedProcedure n.text))
  | some d =>
    let (header, body) ← f.twoBelow d
    let (_, parameters) ← f.twoBelow header
    let (_, ps) ← f.see parameters
    let (_, as) ← f.see arguments
    if ps.length ≠ as.length then
      throw (.failure (.arityMismatch n.text ps.length as.length))
    return (← f.bindAll v .empty ps as, body)

def deed (procedures : Bindings Nat) (v : View) (h : Nat) : Except Fault Walk.Deed := do
  let (n, hs) ← f.see h
  match n.kind with
  | .program => do
    let (block, list) ← f.twoBelow h
    let (_, ds) ← f.see list
    return .define (← f.defineAll procedures ds) block
  | .block => return .push (hs.map .visit)
  | .assign => do
    let (target, expression) ← f.twoBelow h
    let (t, _) ← f.see target
    if t.kind ≠ .name then throw (.failure (.malformedNode "set" .target))
    return .store t.text (← f.evaluate v expression)
  | .times => do
    let (count, body) ← f.twoBelow h
    return .push [.times (Decimal.count (← f.evaluate v count)) body]
  | .loop => do
    let (condition, body) ← f.twoBelow h
    return .push [.loop condition body]
  | .branch => match hs with
    | [condition, body] => do
      return .push (if ← f.holds v condition then [.visit body] else [])
    | [condition, body, otherwise] => do
      return .push [.visit (if ← f.holds v condition then body else otherwise)]
    | hs => throw (.failure (.malformedNode "if" (.branchCount hs.length)))
  | .call => do
    let (frame, body) ← f.prepare procedures v h
    return .call frame body
  | _ => match f.order? v n h with
    | some r => r.map .order
    | none => throw (.failure (.unknownCommand n.text))

def round (v : View) (condition body : Nat) : Except Fault Walk.Deed := do
  return .push (if ← f.holds v condition then [.visit body, .loop condition body] else [])

end Forest

structure Walk (ω : Type) where
  tasks : List Walk.Task
  globals : Bindings Float
  frames : List (Bindings Float)
  procedures : Bindings Nat
  host : ω

namespace Walk

inductive Progress (ω : Type)
  | going (w : Walk ω)
  | ended (o : Outcome) (w : Walk ω)
  /-- the run has asked for a node that is not there -/
  | broken (e : Forest.Error)

variable {ω : Type}

def memory (w : Walk ω) : Machine ω :=
  ⟨[], w.globals, w.frames, .empty, w.host⟩

def store (w : Walk ω) (name : String) (value : Float) : Walk ω :=
  let m := w.memory.store name value
  { w with globals := m.globals, frames := m.frames }

def todo (w : Walk ω) (tasks : List Task) : Walk ω :=
  { w with tasks := tasks ++ w.tasks }

def leaves : List Task → Nat
  | [] => 0
  | .leave :: tasks => leaves tasks + 1
  | .visit _ :: tasks | .times _ _ :: tasks | .loop _ _ :: tasks => leaves tasks

/-- Gives up what is left to do. Each procedure that is not left yet gives up its variables, and
nothing else does. -/
def unwound (w : Walk ω) : Walk ω :=
  { w with tasks := [], frames := w.frames.drop (leaves w.tasks) }

variable [Host ω]

def view (w : Walk ω) : View :=
  w.memory.view

def perform (w : Walk ω) (e : Effect) : Walk ω :=
  { w with host := Host.perform e w.host }

def settle (w : Walk ω) : Progress ω :=
  match Host.settle w.host with
  | (.go, host) => .going { w with host }
  | (.stop, host) => .ended .stopped { w with host }
  | (.held, host) => .ended .held { w with host }

def carryOut (w : Walk ω) : Deed → Progress ω
  | .order o => (w.perform (.order o)).settle
  | .store name x => .going ((w.store name x).perform (.store name x))
  | .push tasks => .going (w.todo tasks)
  | .define procedures block => .going ({ w with procedures }.todo [.visit block])
  | .call frame body => .going { w.todo [.visit body, .leave] with frames := frame :: w.frames }

def attempt (w : Walk ω) (find : Bindings Nat → View → Except Fault Deed) : Progress ω :=
  match find w.procedures w.view with
  | .ok d => w.carryOut d
  | .error (.failure e) => .ended (.failed e) w
  | .error (.access e) => .broken e

def proceed (w : Walk ω) (find : Bindings Nat → View → Except Fault Deed) : Progress ω :=
  match Host.poll w.host with
  | (true, host) => .ended .stopped { w with host }
  | (false, host) => { w with host }.attempt find

def step (f : Forest Node) (w : Walk ω) : Progress ω :=
  match w.tasks with
  | [] => .ended .finished w
  | .visit h :: tasks => { w with tasks }.proceed fun procedures v => f.deed procedures v h
  | .times 0 _ :: tasks => .going { w with tasks }
  | .times (count + 1) body :: tasks =>
    .going { w with tasks := .visit body :: .times count body :: tasks }
  | .loop condition body :: tasks =>
    { w with tasks }.proceed fun _ v => f.round v condition body
  | .leave :: tasks => .going { w with tasks, frames := w.frames.tail }

def steps (f : Forest Node) : Nat → Walk ω → Progress ω
  | 0, w => .going w
  | n + 1, w => match w.step f with
    | .going w => w.steps f n
    | .ended o w => .ended o w
    | .broken e => .broken e

def start (w : Walk ω) (root : Nat) : Walk ω :=
  ⟨[.visit root], .empty, [], .empty, Host.start w.host⟩

def run (f : Forest Node) (limit : Nat) (w : Walk ω) (root : Nat) : Progress ω :=
  match (w.start root).steps f limit with
  | .going w => .going w
  | .ended o w => .ended o w.unwound
  | .broken e => .broken e

end Walk

end TurtleGraphics
