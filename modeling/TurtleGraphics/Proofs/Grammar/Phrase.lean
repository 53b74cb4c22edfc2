import TurtleGraphics.Node
import TurtleGraphics.Tree

/-!
The phrases of the language, as derivations in its grammar.

    script     = EOL* command+ procedure* EOI
    procedure  = "def" NAME NAME* block
    block      = "{" lineEnd command* "}" lineEnd
    command    = ("forward" | "right" | "left" | "face") expression lineEnd
               | ("penup" | "pendown" | "home") lineEnd
               | "jump" expression expression lineEnd
               | "set" NAME expression lineEnd
               | "repeat" expression block
               | "while" condition block
               | "if" condition block ["else" block]
               | "do" NAME expression* lineEnd
               | shade lineEnd
    shade      = a colour by its name | "color" expression expression expression
    condition  = expression ("<" | "=" | ">") expression
    expression = ["+" | "-"] factor factors addends
    addends    = (("+" | "-") factor factors)*
    factors    = (("*" | "/") factor)*
    factor     = NAME | NUMBER | "getX" | "getY" | "(" expression ")"
    lineEnd    = EOL+

A phrase has tokens, and a syntax tree that is said without reading them.
-/

namespace TurtleGraphics.Phrase

def word (text : String) : Token :=
  ⟨.keyword, text⟩

def mark (text : String) : Token :=
  ⟨.symbol, text⟩

def naming (text : String) : Token :=
  ⟨.name, text⟩

def atom (t : Token) : Tree Node :=
  .node (.ofToken t) []

inductive AddOperator
  | plus | minus

def AddOperator.text : AddOperator → String
  | plus => "+"
  | minus => "-"

inductive MultiplyOperator
  | times | divide

def MultiplyOperator.text : MultiplyOperator → String
  | times => "*"
  | divide => "/"

inductive Comparator
  | less | equal | greater

def Comparator.text : Comparator → String
  | less => "<"
  | equal => "="
  | greater => ">"

mutual

inductive Factor
  | name (text : String)
  | number (text : String)
  | getX
  | getY
  | parens (e : Expression)

inductive Factors
  | nil
  | cons (op : MultiplyOperator) (u : Factor) (more : Factors)

inductive Addends
  | nil
  | cons (op : AddOperator) (u : Factor) (more : Factors) (further : Addends)

inductive Expression
  | signed (sign : Option AddOperator) (u : Factor) (more : Factors) (further : Addends)

end

mutual

def Factor.tokens : Factor → List Token
  | .name text => [naming text]
  | .number text => [⟨.number, text⟩]
  | .getX => [word "getX"]
  | .getY => [word "getY"]
  | .parens e => mark "(" :: (e.tokens ++ [mark ")"])

def Factors.tokens : Factors → List Token
  | .nil => []
  | .cons op u more => mark op.text :: (u.tokens ++ more.tokens)

def Addends.tokens : Addends → List Token
  | .nil => []
  | .cons op u more further => mark op.text :: (u.tokens ++ (more.tokens ++ further.tokens))

def Expression.tokens : Expression → List Token
  | .signed sign u more further =>
    sign.toList.map (fun op => mark op.text) ++ (u.tokens ++ (more.tokens ++ further.tokens))

end

mutual

def Factor.tree : Factor → Tree Node
  | .name text => atom (naming text)
  | .number text => atom ⟨.number, text⟩
  | .getX => atom (word "getX")
  | .getY => atom (word "getY")
  | .parens e => e.tree

/-- Further factors are taken in from left to right. -/
def Factors.tree (left : Tree Node) : Factors → Tree Node
  | .nil => left
  | .cons op u more => more.tree (.node (.ofToken (mark op.text)) [left, u.tree])

def Addends.tree (left : Tree Node) : Addends → Tree Node
  | .nil => left
  | .cons op u more further =>
    further.tree (.node (.ofToken (mark op.text)) [left, more.tree u.tree])

/-- A sign belongs to the first factor alone. -/
def Expression.tree : Expression → Tree Node
  | .signed none u more further => further.tree (more.tree u.tree)
  | .signed (some op) u more further =>
    further.tree (more.tree (.node (.ofToken (mark op.text)) [u.tree]))

end

def startsSigned : List Token → Bool
  | [] => false
  | t :: _ => t == mark "+" || t == mark "-"

mutual

def Factor.Longest : Factor → Prop
  | .parens e => e.LongestBefore [mark ")"]
  | _ => True

def Factors.Longest : Factors → Prop
  | .nil => True
  | .cons _ u more => u.Longest ∧ more.Longest

def Addends.Longest : Addends → Prop
  | .nil => True
  | .cons _ u more further => u.Longest ∧ more.Longest ∧ further.Longest

/-- Before these tokens the expression could not go on as a longer one, nor could any expression
inside it. -/
def Expression.LongestBefore (rest : List Token) : Expression → Prop
  | .signed _ u more further =>
    startsSigned rest = false ∧ u.Longest ∧ more.Longest ∧ further.Longest

end

structure Condition where
  left : Expression
  comparator : Comparator
  right : Expression

namespace Condition

def tokens (c : Condition) : List Token :=
  c.left.tokens ++ mark c.comparator.text :: c.right.tokens

def tree (c : Condition) : Tree Node :=
  .node (.ofToken (mark c.comparator.text)) [c.left.tree, c.right.tree]

def LongestBefore (rest : List Token) (c : Condition) : Prop :=
  c.left.LongestBefore (mark c.comparator.text :: c.right.tokens) ∧ c.right.LongestBefore rest

end Condition

structure LineEnd where
  first : String
  more : List String

def endOfLine (text : String) : Token :=
  ⟨.endOfLine, text⟩

def LineEnd.tokens (l : LineEnd) : List Token :=
  endOfLine l.first :: l.more.map endOfLine

inductive Move
  | forward | right | left | face

def Move.text : Move → String
  | forward => "forward"
  | right => "right"
  | left => "left"
  | face => "face"

inductive Bare
  | penUp | penDown | home

def Bare.text : Bare → String
  | penUp => "penup"
  | penDown => "pendown"
  | home => "home"

inductive Shade
  | named (c : Palette)
  | mixed (red green blue : Expression)

namespace Shade

def tokens : Shade → List Token
  | named c => [word c.name]
  | mixed red green blue => word "color" :: (red.tokens ++ (green.tokens ++ blue.tokens))

def tree : Shade → Tree Node
  | named c => atom (word c.name)
  | mixed red green blue => .node (.ofToken (word "color")) [red.tree, green.tree, blue.tree]

def LongestBefore (rest : List Token) : Shade → Prop
  | named _ => True
  | mixed red green blue =>
    red.LongestBefore (green.tokens ++ blue.tokens) ∧ green.LongestBefore blue.tokens ∧
      blue.LongestBefore rest

end Shade

mutual

inductive Command
  | move (m : Move) (e : Expression) (close : LineEnd)
  | bare (b : Bare) (close : LineEnd)
  | jump (x y : Expression) (close : LineEnd)
  | assign (name : String) (e : Expression) (close : LineEnd)
  | times (e : Expression) (body : Block)
  | loop (c : Condition) (body : Block)
  | branch (c : Condition) (body : Block)
  | branchElse (c : Condition) (body otherwise : Block)
  | call (name : String) (arguments : List Expression) (close : LineEnd)
  | color (shade : Shade) (close : LineEnd)

inductive Block
  | braces (opening : LineEnd) (commands : Commands) (close : LineEnd)

inductive Commands
  | nil
  | cons (c : Command) (more : Commands)

end

mutual

def Command.tokens : Command → List Token
  | .move m e close => word m.text :: (e.tokens ++ close.tokens)
  | .bare b close => word b.text :: close.tokens
  | .jump x y close => word "jump" :: (x.tokens ++ (y.tokens ++ close.tokens))
  | .assign name e close => word "set" :: naming name :: (e.tokens ++ close.tokens)
  | .times e body => word "repeat" :: (e.tokens ++ body.tokens)
  | .loop c body => word "while" :: (c.tokens ++ body.tokens)
  | .branch c body => word "if" :: (c.tokens ++ body.tokens)
  | .branchElse c body otherwise =>
    word "if" :: (c.tokens ++ (body.tokens ++ word "else" :: otherwise.tokens))
  | .call name arguments close =>
    word "do" :: naming name :: (arguments.flatMap Expression.tokens ++ close.tokens)
  | .color shade close => shade.tokens ++ close.tokens

def Block.tokens : Block → List Token
  | .braces opening commands close =>
    mark "\x7b" :: (opening.tokens ++ (commands.tokens ++ mark "\x7d" :: close.tokens))

def Commands.tokens : Commands → List Token
  | .nil => []
  | .cons c more => c.tokens ++ more.tokens

end

mutual

def Command.tree : Command → Tree Node
  | .move m e _ => .node (.ofToken (word m.text)) [e.tree]
  | .bare b _ => atom (word b.text)
  | .jump x y _ => .node (.ofToken (word "jump")) [x.tree, y.tree]
  | .assign name e _ => .node (.ofToken (word "set")) [atom (naming name), e.tree]
  | .times e body => .node (.ofToken (word "repeat")) [e.tree, body.tree]
  | .loop c body => .node (.ofToken (word "while")) [c.tree, body.tree]
  | .branch c body => .node (.ofToken (word "if")) [c.tree, body.tree]
  | .branchElse c body otherwise =>
    .node (.ofToken (word "if")) [c.tree, body.tree, otherwise.tree]
  | .call name arguments _ =>
    .node (.ofToken (word "do"))
      [atom (naming name), .node (.ofGroup .list) (arguments.map Expression.tree)]
  | .color shade _ => shade.tree

def Block.tree : Block → Tree Node
  | .braces _ commands _ => .node (.ofGroup .block) commands.trees

def Commands.trees : Commands → List (Tree Node)
  | .nil => []
  | .cons c more => c.tree :: more.trees

end

namespace Commands

def ofList : List Command → Commands
  | [] => nil
  | c :: cs => cons c (ofList cs)

def toList : Commands → List Command
  | nil => []
  | cons c more => c :: more.toList

@[simp] theorem ofList_toList : (cs : Commands) → ofList cs.toList = cs
  | nil => rfl
  | cons c more => congrArg (cons c) more.ofList_toList

@[simp] theorem tokens_ofList (cs : List Command) :
    (ofList cs).tokens = cs.flatMap Command.tokens := by
  induction cs with
  | nil => rfl
  | cons c cs ih => simp [ofList, Commands.tokens, ih]

@[simp] theorem trees_ofList (cs : List Command) : (ofList cs).trees = cs.map Command.tree := by
  induction cs with
  | nil => rfl
  | cons c cs ih => simp [ofList, Commands.trees, ih]

end Commands

def LongestAllBefore (rest : List Token) : List Expression → Prop
  | [] => True
  | e :: es => e.LongestBefore (es.flatMap Expression.tokens ++ rest) ∧ LongestAllBefore rest es

mutual

/-- No expression in the command is directly followed by a sign. -/
def Command.Longest : Command → Prop
  | .move _ e close => e.LongestBefore close.tokens
  | .bare _ _ => True
  | .jump x y close =>
    x.LongestBefore (y.tokens ++ close.tokens) ∧ y.LongestBefore close.tokens
  | .assign _ e close => e.LongestBefore close.tokens
  | .times e body => e.LongestBefore body.tokens ∧ body.Longest
  | .loop c body => c.LongestBefore body.tokens ∧ body.Longest
  | .branch c body => c.LongestBefore body.tokens ∧ body.Longest
  | .branchElse c body otherwise =>
    c.LongestBefore body.tokens ∧ body.Longest ∧ otherwise.Longest
  | .call _ arguments close => LongestAllBefore close.tokens arguments
  | .color shade close => shade.LongestBefore close.tokens

def Block.Longest : Block → Prop
  | .braces _ commands _ => commands.Longest

def Commands.Longest : Commands → Prop
  | .nil => True
  | .cons c more => c.Longest ∧ more.Longest

end

theorem Commands.longest_ofList (cs : List Command) :
    (ofList cs).Longest ↔ ∀ c ∈ cs, c.Longest := by
  induction cs with
  | nil => simp [ofList, Commands.Longest]
  | cons c cs ih => simp [ofList, Commands.Longest, ih]

structure Procedure where
  name : String
  parameters : List String
  body : Block

namespace Procedure

def tokens (p : Procedure) : List Token :=
  word "def" :: naming p.name :: (p.parameters.map naming ++ p.body.tokens)

/-- The name and the parameters are gathered under one node. -/
def tree (p : Procedure) : Tree Node :=
  .node (.ofToken (word "def"))
    [.node (.ofGroup .header)
      [atom (naming p.name), .node (.ofGroup .list) (p.parameters.map fun x => atom (naming x))],
      p.body.tree]

end Procedure

structure Script where
  blank : List String
  first : Command
  more : List Command
  procedures : List Procedure

namespace Script

def tokens (s : Script) : List Token :=
  s.blank.map endOfLine ++ (s.first.tokens ++ (s.more.flatMap Command.tokens ++
    (s.procedures.flatMap Procedure.tokens ++ [Token.theEnd])))

/-- All commands under one node and all procedures under another, each in the order of the text. -/
def tree (s : Script) : Tree Node :=
  .node (.ofGroup .program)
    [.node (.ofGroup .block) (s.first.tree :: s.more.map Command.tree),
      .node (.ofGroup .list) (s.procedures.map Procedure.tree)]

def Longest (s : Script) : Prop :=
  s.first.Longest ∧ (∀ c ∈ s.more, c.Longest) ∧ ∀ p ∈ s.procedures, p.body.Longest

end Script

end TurtleGraphics.Phrase
