import TurtleGraphics.Grammar.Expression

/-!
Commands, blocks and procedures.

    program   = lineEnd* command+ procedure* END
    procedure = "def" NAME NAME* block
    block     = "{" lineEnd command* "}" lineEnd
    command   = ("forward" | "left" | "right" | "face") expression lineEnd
              | ("penup" | "pendown" | "home") lineEnd
              | "jump" expression expression lineEnd
              | "set" NAME expression lineEnd
              | "repeat" expression block
              | "while" condition block
              | "if" condition block ["else" block]
              | "do" NAME expression* lineEnd
              | (colour | "color" expression expression expression) lineEnd

Braces, `else` and line ends leave no trace in the tree. A block is a rule over the commands it may
hold, so that commands nest as deep as there are tokens.
-/

namespace TurtleGraphics.Grammar

def skipLineEnds : Nat → Rule Unit
  | 0 => return ()
  | n + 1 => do
    if ← accept ⟨.endOfLine, none⟩ then skipLineEnds n

/-- One line end or more, which count as one. -/
def lineEnd (n : Nat) : Rule Bool := do
  if !(← accept ⟨.endOfLine, none⟩) then return false
  skipLineEnds n
  return true

def move (n : Nat) : Rule Bool := do
  if !(← firstOf [keyword "forward", keyword "right", keyword "left", keyword "face"]) then
    return false
  expect (expression n) .moveExpression
  expect (lineEnd n) .moveLineEnd
  compose 2 [1]
  return true

/-- A colour by name, or by three channels. The line end belongs to the command around it. -/
def color (n : Nat) : Rule Bool := do
  if ← firstOf (Palette.all.map (keyword ·.name)) then return true
  if !(← keyword "color") then return false
  expect (expression n) .firstChannel
  expect (expression n) .secondChannel
  expect (expression n) .thirdChannel
  compose 4 [3, 2, 1]
  return true

def bare (word : String) (n : Nat) : Rule Bool := do
  if !(← keyword word) then return false
  expect (lineEnd n) (.wordLineEnd word)
  return true

def jump (n : Nat) : Rule Bool := do
  if !(← keyword "jump") then return false
  expect (expression n) .jumpFirst
  expect (expression n) .jumpSecond
  expect (lineEnd n) .jumpLineEnd
  compose 3 [2, 1]
  return true

def assign (n : Nat) : Rule Bool := do
  if !(← keyword "set") then return false
  expect variableName .setVariable
  expect (expression n) .setExpression
  expect (lineEnd n) .setLineEnd
  compose 3 [2, 1]
  return true

def call (n : Nat) : Rule Bool := do
  if !(← keyword "do") then return false
  expect variableName .doName
  let arguments ← gather (expression n) n
  push (← group .list arguments)
  expect (lineEnd n) .doLineEnd
  compose 3 [2, 1]
  return true

def blockOf (command : Rule Bool) (n : Nat) : Rule Bool := do
  if !(← delimiter "\x7b") then return false
  expect (lineEnd n) .blockOpening
  let commands ← gather command n
  push (← group .block commands)
  expect (delimiter "\x7d") .blockClosing
  expect (lineEnd n) .blockEnd
  return true

def timesWith (block : Rule Bool) (n : Nat) : Rule Bool := do
  if !(← keyword "repeat") then return false
  expect (expression n) .repeatExpression
  expect block .repeatBlock
  compose 3 [2, 1]
  return true

def loopWith (block : Rule Bool) (n : Nat) : Rule Bool := do
  if !(← keyword "while") then return false
  expect (condition n) .whileCondition
  expect block .whileBlock
  compose 3 [2, 1]
  return true

def branchWith (block : Rule Bool) (n : Nat) : Rule Bool := do
  if !(← keyword "if") then return false
  expect (condition n) .ifCondition
  expect block .ifBlock
  if ← accept ⟨.keyword, some "else"⟩ then
    expect block .elseBlock
    compose 4 [3, 2, 1]
  else
    compose 3 [2, 1]
  return true

def commandWith (block : Rule Bool) (n : Nat) : Rule Bool := do
  if ← firstOf [move n, bare "penup" n, bare "pendown" n, bare "home" n, jump n, assign n,
      timesWith block n, loopWith block n, branchWith block n, call n] then
    return true
  if !(← color n) then return false
  expect (lineEnd n) .colorLineEnd
  return true

def command : Nat → Rule Bool
  | 0 => return false
  | n + 1 => commandWith (blockOf (command n) n) (n + 1)

def block (n : Nat) : Rule Bool :=
  blockOf (command n) n

def procedure (n : Nat) : Rule Bool := do
  if !(← keyword "def") then return false
  expect variableName .procedureName
  let name ← pop
  let parameters ← gather variableName n
  let list ← group .list parameters
  push (← group .header [name, list])
  expect (block n) .procedureBlock
  compose 3 [2, 1]
  return true

def trimmedProgram (n : Nat) : Rule Bool := do
  if !(← command n) then return false
  let first ← pop
  let rest ← gather (command n) n
  let procedures ← gather (procedure n) n
  expect (accept ⟨.endOfInput, none⟩) .unexpectedTerms
  let block ← group .block (first :: rest)
  let list ← group .list procedures
  push (← group .program [block, list])
  return true

/-- Blank lines may come before the commands. -/
def program (n : Nat) : Rule Bool := do
  let _ ← lineEnd n
  trimmedProgram n

end TurtleGraphics.Grammar
