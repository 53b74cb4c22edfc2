import TurtleGraphics.Token

/-!
Numeric literals, read one character at a time. A literal is digits with an optional point, then
an optional exponent and an optional letter for its precision. A precision letter ends the literal;
so does a second exponent sign. What ends on a digit or on an exponent sign is a number, and so are
digits followed by a point.
-/

namespace TurtleGraphics.Token

inductive Stage
  /-- digits only -/
  | whole
  /-- a point before any digit -/
  | dot
  /-- digits and a point -/
  | point
  /-- digits after a point -/
  | fraction
  /-- the letter that starts an exponent -/
  | marker
  /-- the sign of an exponent -/
  | sign
  /-- digits of an exponent -/
  | exponent
deriving DecidableEq

inductive Stage.Next
  | more (stage : Stage)
  | last (kind : Kind)
  | stop
deriving DecidableEq

def isPrecision (c : Char) : Bool :=
  c == 'f' || c == 'F' || c == 'd' || c == 'D'

def isMarker (c : Char) : Bool :=
  c == 'e' || c == 'E'

def isSign (c : Char) : Bool :=
  c == '+' || c == '-'

namespace Stage

def kind : Stage → Kind
  | dot => .symbol
  | marker => .error
  | _ => .number

def digit : Stage → Stage
  | whole => whole
  | dot | point | fraction => fraction
  | marker | sign | exponent => exponent

/-- A precision letter has to follow a digit. -/
def precision : Stage → Kind
  | whole | fraction | exponent => .number
  | _ => .error

def next (s : Stage) (c : Char) : Next :=
  if c.isDigit then .more s.digit
  else if isPrecision c then .last s.precision
  else if isMarker c then
    match s with
    | whole | point | fraction => .more marker
    | _ => .stop
  else if isSign c then
    match s with
    | marker => .more sign
    | sign | exponent => .last .error
    | _ => .stop
  else if c == '.' then
    match s with
    | whole => .more point
    | _ => .stop
  else .stop

end Stage

end TurtleGraphics.Token
