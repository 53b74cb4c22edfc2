import TurtleGraphics.Grammar.State

/-!
Expressions and conditions.

    expression  = term { ("+" | "-") plainTerm }
    term        = factor { ("*" | "/") plainFactor }
    plainTerm   = plainFactor { ("*" | "/") plainFactor }
    factor      = [ "+" | "-" ] plainFactor
    plainFactor = NAME | NUMBER | "getX" | "getY" | "(" expression ")"
    condition   = expression ("<" | "=" | ">") expression

A sign is allowed on the first factor only, and an operator takes all it can to its left. The rules
take a bound on the tokens to come; `inner` recognises what may stand in parentheses.
-/

namespace TurtleGraphics.Grammar

def variableName : Rule Bool :=
  leaf ⟨.name, none⟩

def number : Rule Bool :=
  leaf ⟨.number, none⟩

def addOperator : Rule Bool :=
  firstOf [symbol "+", symbol "-"]

def multiplyOperator : Rule Bool :=
  firstOf [symbol "*", symbol "/"]

def comparator : Rule Bool :=
  firstOf [symbol "<", symbol "=", symbol ">"]

def plainFactor (inner : Rule Bool) : Rule Bool := do
  if ← firstOf [variableName, number, keyword "getX", keyword "getY"] then return true
  if !(← delimiter "(") then return false
  expect inner .parenthesized
  expect (delimiter ")") .unclosedParenthesis
  return true

def factorWith (inner : Rule Bool) : Rule Bool := do
  let signed ← addOperator
  if ← plainFactor inner then
    if signed then compose 2 [1]
    return true
  if signed then fail .signedFactor
  return false

def products (inner : Rule Bool) (n : Nat) : Rule Unit :=
  chain multiplyOperator (plainFactor inner) .multiplier n

def termWith (inner : Rule Bool) (n : Nat) : Rule Bool := do
  if !(← factorWith inner) then return false
  products inner n
  return true

def plainTerm (inner : Rule Bool) (n : Nat) : Rule Bool := do
  if !(← plainFactor inner) then return false
  products inner n
  return true

def expressionWith (inner : Rule Bool) (n : Nat) : Rule Bool := do
  if !(← termWith inner n) then return false
  chain addOperator (plainTerm inner n) .addend n
  return true

def expression : Nat → Rule Bool
  | 0 => return false
  | n + 1 => expressionWith (expression n) n

def term : Nat → Rule Bool
  | 0 => return false
  | n + 1 => termWith (expression n) n

def factor : Nat → Rule Bool
  | 0 => return false
  | n + 1 => factorWith (expression n)

def condition (n : Nat) : Rule Bool := do
  if !(← expression n) then return false
  expect comparator .comparator
  expect (expression n) .comparedExpression
  compose 2 [3, 1]
  return true

end TurtleGraphics.Grammar
