import TurtleGraphics.Data
import TurtleGraphics.Decimal.Layout
import TurtleGraphics.Palette

/-!
What a turtle can be told to do, and what can be seen of its drawing as it is made. A stroke is
written as a line of text with trimmed numbers, or as a record of a data file with exact ones.
-/

namespace TurtleGraphics

/-- Angles are in degrees; a packed colour is `0xRRGGBB`. -/
inductive Order
  | penUp
  | penDown
  | forward (distance : Float)
  | turnLeft (degrees : Float)
  | turnRight (degrees : Float)
  | face (degrees : Float)
  | jumpTo (x y : Float)
  | home
  | colorName (color : Palette)
  | colorRgb (rgb : UInt32)
deriving DecidableEq

class Turtle (τ : Type) where
  obey : Order → τ → τ
  x : τ → Float
  y : τ → Float

structure Point where
  x : Float
  y : Float
deriving DecidableEq

inductive Stroke
  | line (start finish : Point) (rgb : UInt32)
  | moveTo (point : Point)
  | heading (degrees : Float)
  | penUp
  | penDown
  | color (rgb : UInt32)
deriving DecidableEq

/-- Nine places are kept, a half is rounded away from zero, and zero has no sign. -/
def trimmed (x : Float) : Float :=
  let rounded := (x * 1e9).round / 1e9
  if rounded == 0 then 0 else rounded

def coordinate (x : Float) : String :=
  Decimal.plain.render (trimmed x)

def hex (rgb : UInt32) : String :=
  let digits := (Nat.toDigits 16 rgb.toNat).map Char.toUpper
  String.ofList ('#' :: List.replicate (6 - digits.length) '0' ++ digits)

namespace Point

def origin : Point :=
  ⟨0, 0⟩

def display (p : Point) : String :=
  "(" ++ coordinate p.x ++ ", " ++ coordinate p.y ++ ")"

end Point

def Stroke.display : Stroke → String
  | line start finish rgb =>
    "line " ++ start.display ++ " -> " ++ finish.display ++ " " ++ hex rgb
  | moveTo point => "move " ++ point.display
  | heading degrees => "heading " ++ coordinate degrees
  | penUp => "pen up"
  | penDown => "pen down"
  | color rgb => "color " ++ hex rgb

def Point.data (p : Point) : Data :=
  .record [("x", .bare (Decimal.data.render p.x)), ("y", .bare (Decimal.data.render p.y))]

namespace Stroke

def whole (n : UInt32) : Data :=
  .bare (toString n.toNat)

def data : Stroke → Data
  | line start finish rgb => .record
    [("op", .word "line"), ("from", start.data), ("to", finish.data), ("color", whole rgb)]
  | moveTo point => .record [("op", .word "move_to"), ("to", point.data)]
  | heading degrees => .record
    [("op", .word "heading"), ("degrees", .bare (Decimal.data.render degrees))]
  | penUp => .record [("op", .word "pen_up")]
  | penDown => .record [("op", .word "pen_down")]
  | color rgb => .record [("op", .word "color"), ("rgb", whole rgb)]

def dataOf (strokes : List Stroke) : Data :=
  .list (strokes.map data)

end Stroke

end TurtleGraphics
