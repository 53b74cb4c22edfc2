import TurtleGraphics.Grammar.Command

/-!
Each rule of the grammar can be tried on its own, in any order, and so can the steps it is made of.
An attempt that fails leaves a state from which the next one goes on.
-/

namespace TurtleGraphics

inductive Nonterminal
  | program | command | procedure | block | lineEnd
  | move | color | penUp | penDown | home | jump
  | assign | times | loop | branch | call
  | condition | comparator | expression | term | factor
  | addOperator | multiplyOperator | variableName
deriving DecidableEq

namespace Grammar

def rule (n : Nat) : Nonterminal → Rule Bool
  | .program => program n
  | .command => command n
  | .procedure => procedure n
  | .block => block n
  | .lineEnd => lineEnd n
  | .move => move n
  | .color => color n
  | .penUp => bare "penup" n
  | .penDown => bare "pendown" n
  | .home => bare "home" n
  | .jump => jump n
  | .assign => assign n
  | .times => timesWith (block n) n
  | .loop => loopWith (block n) n
  | .branch => branchWith (block n) n
  | .call => call n
  | .condition => condition n
  | .comparator => comparator
  | .expression => expression n
  | .term => term n
  | .factor => factor n
  | .addOperator => addOperator
  | .multiplyOperator => multiplyOperator
  | .variableName => variableName

def recognise (nt : Nonterminal) : Rule Bool := do
  rule (← get).bound nt

inductive Attempt
  | rule (nt : Nonterminal)
  | use (u : Feed.Use)
  | compose (root : Nat) (children : List Nat)
deriving DecidableEq

inductive Attempt.Answer
  | matched (b : Bool)
  | used (a : Feed.Answer)
  | composed
  | failed (e : SyntaxError)
deriving DecidableEq

def answered {α : Type} (rule : Rule α) (answer : α → Attempt.Answer) (s : State) :
    Attempt.Answer × State :=
  match rule s with
  | .ok a s => (answer a, s)
  | .error e s => (.failed e, s)

def State.attempt (s : State) : Attempt → Attempt.Answer × State
  | .rule nt => answered (recognise nt) .matched s
  | .use u =>
    let (a, feed) := s.feed.use u
    (.used a, { s with feed })
  | .compose root children => answered (compose root children) (fun _ => .composed) s

def State.after (s : State) (attempts : List Attempt) : State :=
  attempts.foldl (fun s a => (s.attempt a).2) s

end Grammar

end TurtleGraphics

