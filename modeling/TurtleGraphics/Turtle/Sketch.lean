import TurtleGraphics.Decimal.Binary64
import TurtleGraphics.Turtle

/-!
A turtle that keeps its pose and every stroke it makes, in order. Heading 0 points along x, and
angles grow counterclockwise.
-/

namespace TurtleGraphics.Angle

open Decimal

/-- The double nearest to a 180th of the nearest double to pi. -/
def perDegree : Float :=
  Float.ofBits 0x3F91DF46A2529D39

def radians (degrees : Float) : Float :=
  degrees * perDegree

/-- What is left after taking away whole turns, with the sign of the angle. No rounding takes
place. -/
def lessTurns (degrees : Float) : Float :=
  match Binary64.ofFloat degrees with
  | .nan | .infinite _ => Float.ofBits 0x7FF8000000000000
  | .finite negative m e =>
    match e with
    | .ofNat s => nearest negative ((m <<< s) % 360) 1
    | .negSucc s => nearest negative (m % (360 <<< (s + 1))) (1 <<< (s + 1))

/-- The angle from 0 up to a full turn that points the same way. A tiny negative angle may round to
360 itself. -/
def normal (degrees : Float) : Float :=
  let rest := lessTurns degrees
  if rest < 0 then rest + 360 else rest

end TurtleGraphics.Angle

namespace TurtleGraphics

structure Sketch where
  position : Point
  heading : Float
  penDown : Bool
  color : UInt32
  strokes : Array Stroke

namespace Sketch

def blank : Sketch :=
  ⟨.origin, 0, true, Palette.black.rgb, #[]⟩

def record (s : Sketch) (stroke : Stroke) : Sketch :=
  { s with strokes := s.strokes.push stroke }

def turnTo (s : Sketch) (degrees : Float) : Sketch :=
  let heading := Angle.normal degrees
  { s with heading }.record (.heading heading)

def moveTo (s : Sketch) (point : Point) : Sketch :=
  { s with position := point }.record (.moveTo point)

def ahead (s : Sketch) (distance : Float) : Point :=
  let angle := Angle.radians s.heading
  ⟨s.position.x + distance * angle.cos, s.position.y + distance * angle.sin⟩

/-- With the pen on the paper a step leaves a line, otherwise it is only a move. -/
def forward (s : Sketch) (distance : Float) : Sketch :=
  let finish := s.ahead distance
  if s.penDown then
    { s with position := finish }.record (.line s.position finish s.color)
  else s.moveTo finish

def setColor (s : Sketch) (rgb : UInt32) : Sketch :=
  { s with color := rgb }.record (.color rgb)

def obey (s : Sketch) : Order → Sketch
  | .penUp => { s with penDown := false }.record .penUp
  | .penDown => { s with penDown := true }.record .penDown
  | .forward distance => s.forward distance
  | .turnLeft degrees => s.turnTo (s.heading + degrees)
  | .turnRight degrees => s.turnTo (s.heading - degrees)
  | .face degrees => s.turnTo degrees
  | .jumpTo x y => s.moveTo ⟨x, y⟩
  | .home => (s.moveTo .origin).turnTo 0
  | .colorName color => s.setColor color.rgb
  | .colorRgb rgb => s.setColor rgb

instance : Turtle Sketch where
  obey order s := s.obey order
  x s := s.position.x
  y s := s.position.y

def segments (s : Sketch) : List (Point × Point) :=
  s.strokes.toList.filterMap fun
    | .line start finish _ => some (start, finish)
    | _ => none

end Sketch

end TurtleGraphics
