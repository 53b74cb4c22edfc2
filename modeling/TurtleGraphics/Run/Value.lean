import TurtleGraphics.Decimal.Literal
import TurtleGraphics.Node
import TurtleGraphics.Run.Error
import TurtleGraphics.Token.Literal
import TurtleGraphics.Tree
import TurtleGraphics.Turtle

/-!
The values of expressions and conditions. They depend on a view of the run, the values of the
variables and the place of the turtle, and change nothing.
-/

namespace TurtleGraphics

structure View where
  fetch : String → Option Float
  x : Float
  y : Float

/-- The value of a literal; letters for its precision at the end count for nothing. -/
def literalValue (text : String) : Except RuntimeError Float :=
  let digits := (text.toList.reverse.dropWhile Token.isPrecision).reverse
  match Decimal.read? (String.ofList digits) with
  | some x => .ok x
  | none => .error (.invalidNumber text)

def onlyChild (n : Node) (ts : List (Tree Node)) : Except RuntimeError (Tree Node) :=
  match ts with
  | [a] => .ok a
  | _ => .error (.malformedNode n.text (.childCount 1 ts.length))

def twoChildren (n : Node) (ts : List (Tree Node)) :
    Except RuntimeError (Tree Node × Tree Node) :=
  match ts with
  | [a, b] => .ok (a, b)
  | _ => .error (.malformedNode n.text (.childCount 2 ts.length))

def threeChildren (n : Node) (ts : List (Tree Node)) :
    Except RuntimeError (Tree Node × Tree Node × Tree Node) :=
  match ts with
  | [a, b, c] => .ok (a, b, c)
  | _ => .error (.malformedNode n.text (.childCount 3 ts.length))

namespace View

/-- The left operand is evaluated first. -/
def evaluate (v : View) : Tree Node → Except RuntimeError Float
  | .node n ts =>
    match n.kind, ts with
    | .number, [] => literalValue n.text
    | .name, [] => match v.fetch n.text with
      | some x => .ok x
      | none => .error (.undefinedVariable n.text)
    | .getX, [] => .ok v.x
    | .getY, [] => .ok v.y
    | .add, [a] => v.evaluate a
    | .sub, [a] => (v.evaluate a).map (- ·)
    | .add, [a, b] => do return (← v.evaluate a) + (← v.evaluate b)
    | .sub, [a, b] => do return (← v.evaluate a) - (← v.evaluate b)
    | .mul, [a, b] => do return (← v.evaluate a) * (← v.evaluate b)
    | .div, [a, b] => do
      let dividend ← v.evaluate a
      let divisor ← v.evaluate b
      if divisor == 0 then throw .divisionByZero
      return dividend / divisor
    | .number, _ | .name, _ | .getX, _ | .getY, _ =>
      .error (.malformedNode n.text .valueWithChildren)
    | .add, ts | .sub, ts | .mul, ts | .div, ts =>
      .error (.malformedNode n.text (.operandCount ts.length))
    | _, _ => .error (.malformedNode n.text .notExpression)

def comparison? : Node.Kind → Option (Float → Float → Bool)
  | .less => some (· < ·)
  | .equal => some (· == ·)
  | .greater => some (· > ·)
  | _ => none

def holds (v : View) : Tree Node → Except RuntimeError Bool
  | .node n ts => do
    match comparison? n.kind with
    | none => throw (.malformedNode n.text .notComparison)
    | some compare =>
      let (a, b) ← twoChildren n ts
      return compare (← v.evaluate a) (← v.evaluate b)

def operand (v : View) (n : Node) (ts : List (Tree Node)) : Except RuntimeError Float := do
  v.evaluate (← onlyChild n ts)

/-- A colour channel: the whole part of a value, which has to be from 0 to 255. What is not a number
counts as 0. -/
def channelOf (x : Float) : Except RuntimeError UInt32 :=
  match Decimal.Binary64.ofFloat x with
  | .nan => .ok 0
  | .infinite _ => .error (.colorOutOfRange x)
  | .finite negative m e =>
    let whole := Decimal.Binary64.wholePart m e
    if 255 < whole || negative && whole != 0 then .error (.colorOutOfRange x)
    else .ok (UInt32.ofNat whole)

def channel (v : View) (t : Tree Node) : Except RuntimeError UInt32 := do
  channelOf (← v.evaluate t)

def pack (red green blue : UInt32) : UInt32 :=
  red <<< 16 ||| green <<< 8 ||| blue

/-- The order that a drawing command gives; `none` for what is not a drawing command. -/
def order? (v : View) (n : Node) (ts : List (Tree Node)) : Option (Except RuntimeError Order) :=
  match n.kind with
  | .forward => some ((v.operand n ts).map .forward)
  | .left => some ((v.operand n ts).map .turnLeft)
  | .right => some ((v.operand n ts).map .turnRight)
  | .face => some ((v.operand n ts).map .face)
  | .home => some (.ok .home)
  | .jump => some do
    let (a, b) ← twoChildren n ts
    let x ← v.evaluate a
    let y ← v.evaluate b
    return .jumpTo x y
  | .penUp => some (.ok .penUp)
  | .penDown => some (.ok .penDown)
  | .namedColor c => some (.ok (.colorName c))
  | .color => some do
    let (a, b, c) ← threeChildren n ts
    let red ← v.channel a
    let green ← v.channel b
    let blue ← v.channel c
    return .colorRgb (pack red green blue)
  | _ => none

end View

end TurtleGraphics
