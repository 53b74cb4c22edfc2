/-!
The switches by which a run is paused, resumed, stopped and slowed down. Speed 0 holds the turtle
still, speed 100 draws without delay.
-/

namespace TurtleGraphics

structure Pace where
  paused : Bool
  stopped : Bool
  speed : Nat
deriving DecidableEq

namespace Pace

def fastest : Nat :=
  100

inductive Action
  | pause
  | resume
  | stop
  /-- withdraws a stop and leaves the other switches as they are -/
  | reset
  | speed (speed : Nat)
deriving DecidableEq

def new (speed : Nat) (paused : Bool) : Pace :=
  ⟨paused, false, min speed fastest⟩

def act (p : Pace) : Action → Pace
  | .pause => { p with paused := true }
  | .resume => { p with paused := false }
  | .stop => { p with stopped := true }
  | .reset => { p with stopped := false }
  | .speed n => { p with speed := min n fastest }

def actAll (p : Pace) (actions : List Action) : Pace :=
  actions.foldl act p

theorem new_speed_le (speed : Nat) (paused : Bool) : (new speed paused).speed ≤ fastest :=
  Nat.min_le_right speed fastest

theorem act_speed_le {p : Pace} (h : p.speed ≤ fastest) (a : Action) :
    (p.act a).speed ≤ fastest := by
  cases a with
  | speed n => exact Nat.min_le_right n fastest
  | _ => exact h

theorem actAll_speed_le {p : Pace} (h : p.speed ≤ fastest) (actions : List Action) :
    (p.actAll actions).speed ≤ fastest := by
  induction actions generalizing p with
  | nil => exact h
  | cons a rest ih => exact ih (act_speed_le h a)

def holds (p : Pace) : Bool :=
  p.paused || p.speed == 0

structure Moment where
  actions : List Action
  elapsed : Bool
deriving DecidableEq

inductive Settled
  | go
  | stop
  /-- never, for nothing more is done to the switches -/
  | held
deriving DecidableEq

/-- Waits while the turtle is held, whatever time passes. -/
def wait (p : Pace) (ms : List Moment) : Settled × Pace × List Moment :=
  if p.stopped then (.stop, p, ms)
  else if !p.holds then (.go, p, ms)
  else match ms with
    | [] => (.held, p, [])
    | m :: ms => (p.actAll m.actions).wait ms

/-- Lets the delay of a step pass, which a stop cuts short. With nothing more to come it passes. -/
def delay (p : Pace) (ms : List Moment) : Settled × Pace × List Moment :=
  if p.stopped then (.stop, p, ms)
  else match ms with
    | [] => p.wait []
    | m :: ms =>
      let p := p.actAll m.actions
      if m.elapsed then p.wait ms else p.delay ms

def look (p : Pace) : List Moment → Pace × List Moment
  | [] => (p, [])
  | m :: ms => (p.actAll m.actions, ms)

/-- Waits after a drawing step: first for the delay that the speed asks for, then until nothing
holds the turtle. -/
def settle (p : Pace) (ms : List Moment) : Settled × Pace × List Moment :=
  let (p, ms) := p.look ms
  if p.speed < fastest then p.delay ms else p.wait ms

/-- What a controller does from outside to a waiting run, one action after the other. The run
notices a stop before anything that comes after it. -/
def fromOutside (actions : List Action) : List Moment :=
  let untilStop := actions.takeWhile (· != .stop)
  match actions.drop untilStop.length with
  | [] => if actions.isEmpty then [] else [⟨actions, false⟩]
  | last :: rest => [⟨untilStop ++ [last], false⟩, ⟨rest, false⟩]

end Pace

end TurtleGraphics
