import TurtleGraphics.Forest.Edit

/-!
What can be wrong with a program's text. Reading stops at the first fault, and the error shows what
had been put together by then.
-/

namespace TurtleGraphics

namespace Grammar

inductive Fault
  | noCommand
  | unexpectedTerms
  | colorLineEnd
  | procedureName
  | procedureBlock
  | blockOpening
  | blockClosing
  | blockEnd
  | moveExpression
  | moveLineEnd
  | firstChannel
  | secondChannel
  | thirdChannel
  | wordLineEnd (keyword : String)
  | jumpFirst
  | jumpSecond
  | jumpLineEnd
  | setVariable
  | setExpression
  | setLineEnd
  | repeatExpression
  | repeatBlock
  | whileCondition
  | whileBlock
  | ifCondition
  | ifBlock
  | elseBlock
  | doName
  | doLineEnd
  | comparator
  | comparedExpression
  | addend
  | signedFactor
  | multiplier
  | parenthesized
  | unclosedParenthesis
  | emptyStack
  | shallowStack
  | badPositions (root : Nat) (children : List Nat)
  | refused (e : Forest.Error)
deriving DecidableEq

def Fault.message : Fault → String
  | noCommand => "Expected at least one command"
  | unexpectedTerms => "Unexpected terms in program"
  | colorLineEnd => "Expected newline after color"
  | procedureName => "No name found after 'def'"
  | procedureBlock => "Missing block in procedure"
  | blockOpening => "Expected newline after '\x7b'"
  | blockClosing => "No '\x7d' found in block"
  | blockEnd => "Expected newline after '\x7d'"
  | moveExpression => "No expression found after move"
  | moveLineEnd => "No newline found after move"
  | firstChannel => "No expression found in color"
  | secondChannel => "Second expression not found in color"
  | thirdChannel => "Third expression not found in color"
  | wordLineEnd keyword => "No newline found after '" ++ keyword ++ "'"
  | jumpFirst => "No expression found after 'jump'"
  | jumpSecond => "Second expression not found in 'jump'"
  | jumpLineEnd => "No newline found in 'jump'"
  | setVariable => "No variable found after 'set'"
  | setExpression => "No expression found in 'set'"
  | setLineEnd => "No newline found in 'set'"
  | repeatExpression => "No expression found after 'repeat'"
  | repeatBlock => "No block found in 'repeat'"
  | whileCondition => "No condition found after 'while'"
  | whileBlock => "No block found in 'while'"
  | ifCondition => "No condition found after 'if'"
  | ifBlock => "No block found after 'if'"
  | elseBlock => "No block found after 'else'"
  | doName => "No name found after 'do'"
  | doLineEnd => "No newline found after 'do'"
  | comparator => "No comparator found"
  | comparedExpression => "No expression found after comparator"
  | addend => "Error in expression after '+' or '-'"
  | signedFactor => "Sign not followed by a factor"
  | multiplier => "No term after '*' or '/'"
  | parenthesized => "Error in parenthesized expression"
  | unclosedParenthesis => "Unclosed parenthetical expression"
  | emptyStack => "internal: parse stack is empty"
  | shallowStack => "internal: stack too shallow to build tree"
  | badPositions root children =>
    "internal: bad tree positions " ++ toString root ++ " [" ++
      ", ".intercalate (children.map fun n => toString n) ++ "]"
  | refused e => "internal: " ++ e.message

end Grammar

structure SyntaxError where
  fault : Grammar.Fault
  line : Nat
  stack : List String
deriving DecidableEq

def SyntaxError.stackText (e : SyntaxError) : String :=
  "[" ++ ", ".intercalate e.stack ++ "]"

def SyntaxError.message (e : SyntaxError) : String :=
  "line " ++ toString e.line ++ ": " ++ e.fault.message ++ "; stack = " ++ e.stackText

end TurtleGraphics
