import TurtleGraphics.Decimal.Layout

/-! What can go wrong in a run. -/

namespace TurtleGraphics

inductive Malformation
  | childCount (expected found : Nat)
  | branchCount (found : Nat)
  | target
  | valueWithChildren
  | operandCount (found : Nat)
  | notExpression
  | notComparison
  | notDefinition
deriving DecidableEq

inductive RuntimeError
  | undefinedVariable (name : String)
  | undefinedProcedure (name : String)
  | arityMismatch (name : String) (expected found : Nat)
  | divisionByZero
  | malformedNode (node : String) (reason : Malformation)
  | unknownCommand (text : String)
  | colorOutOfRange (value : Float)
  | invalidNumber (text : String)
deriving DecidableEq

def Malformation.message : Malformation → String
  | childCount expected found => s!"expected {expected} children, found {found}"
  | branchCount found => s!"expected 2 or 3 children, found {found}"
  | target => "target is not a name"
  | valueWithChildren => "a value cannot have children"
  | operandCount found => s!"operator with {found} operands"
  | notExpression => "not an expression"
  | notComparison => "not a comparison"
  | notDefinition => "expected a procedure definition"

def RuntimeError.message : RuntimeError → String
  | undefinedVariable name => "undefined variable `" ++ name ++ "`"
  | undefinedProcedure name => "undefined procedure `" ++ name ++ "`"
  | arityMismatch name expected found =>
    "`" ++ name ++ "` expects " ++ toString expected ++ " argument(s), got " ++ toString found
  | divisionByZero => "division by zero"
  | malformedNode node reason => "malformed `" ++ node ++ "` node: " ++ reason.message
  | unknownCommand text => "unknown command `" ++ text ++ "`"
  | colorOutOfRange value =>
    "color channel value " ++ Decimal.plain.render value ++ " is outside 0..=255"
  | invalidNumber text => "`" ++ text ++ "` is not a valid number"

end TurtleGraphics
