import TurtleGraphics.Pace
import TurtleGraphics.Turtle

/-!
The surroundings of a run: a turtle that can be told and asked, and switches that can be looked at.
The stage is the host in which a script says what is done to the switches, and when.
-/

namespace TurtleGraphics

inductive Effect
  | order (order : Order)
  | store (name : String) (value : Float)
deriving DecidableEq

class Host (ω : Type) where
  x : ω → Float
  y : ω → Float
  perform : Effect → ω → ω
  /-- A new run begins, which withdraws a stop. -/
  start : ω → ω
  /-- Looks whether a stop is asked for. -/
  poll : ω → Bool × ω
  /-- Waits after an order. -/
  settle : ω → Pace.Settled × ω

structure Stage (τ : Type) where
  turtle : τ
  pace : Pace
  pending : List Pace.Moment
  orders : Nat
  script : Nat → List Pace.Moment

namespace Stage

variable {τ : Type}

def quiet (turtle : τ) (pace : Pace) : Stage τ :=
  ⟨turtle, pace, [], 0, fun _ => []⟩

structure Event where
  order : Nat
  now : List Pace.Action
  later : List Pace.Action

/-- The moments that follow an order when these events take place. -/
def scriptOf (events : List Event) (order : Nat) : List Pace.Moment :=
  match events.filter (·.order == order) with
  | [] => []
  | es => ⟨es.flatMap (·.now), false⟩ :: es.flatMap fun e => Pace.fromOutside e.later

def order [Turtle τ] (s : Stage τ) (order : Order) : Stage τ :=
  let orders := s.orders + 1
  { s with
    turtle := Turtle.obey order s.turtle
    orders
    pending := s.pending ++ s.script orders }

def look (s : Stage τ) : Stage τ :=
  let (pace, pending) := s.pace.look s.pending
  { s with pace, pending }

def start (s : Stage τ) : Stage τ :=
  let s := s.look
  { s with pace := s.pace.act .reset }

def settle (s : Stage τ) : Pace.Settled × Stage τ :=
  let (settled, pace, pending) := s.pace.settle s.pending
  (settled, { s with pace, pending })

def drained (s : Stage τ) : Stage τ :=
  { s with pace := s.pending.foldl (fun p m => p.actAll m.actions) s.pace, pending := [] }

instance [Turtle τ] : Host (Stage τ) where
  x s := Turtle.x s.turtle
  y s := Turtle.y s.turtle
  perform
    | .order o, s => s.order o
    | .store .., s => s
  start s := s.start
  poll s :=
    let s := s.look
    (s.pace.stopped, s)
  settle s := s.settle

end Stage

end TurtleGraphics
