import TurtleGraphics.Grammar.State
import TurtleGraphics.Proofs.Grammar.Phrase

/-!
Reading a phrase off a list of tokens, with no stack and no forest. The readers go the way the rules
of the grammar go, with the same bounds, and find the same faults.
-/

namespace TurtleGraphics

theorem Grammar.Wanted.accepts_eq (kind : Token.Kind) (text : String) (t : Token) :
    (⟨kind, some text⟩ : Wanted).accepts t = (t == ⟨kind, text⟩) := by
  obtain ⟨k, x⟩ := t
  rw [Bool.eq_iff_iff, beq_iff_eq, Token.mk.injEq]
  simp only [Wanted.accepts, Option.all_some, Bool.and_eq_true, beq_iff_eq]
  exact and_congr_right fun _ => eq_comm

theorem Grammar.Wanted.eq_of_accepts {kind : Token.Kind} {text : String} {t : Token}
    (h : (⟨kind, some text⟩ : Wanted).accepts t = true) : t = ⟨kind, text⟩ := by
  rw [accepts_eq] at h
  exact eq_of_beq h

theorem Grammar.Wanted.eq_of_accepts_kind {kind : Token.Kind} {t : Token}
    (h : (⟨kind, none⟩ : Wanted).accepts t = true) : t = ⟨kind, t.text⟩ := by
  obtain ⟨k, x⟩ := t
  simp only [Wanted.accepts, Option.all_none, Bool.and_true, beq_iff_eq] at h
  rw [h]

namespace Phrase

open Grammar (Fault Wanted)

inductive Reading (α : Type)
  | matched (a : α) (rest : List Token)
  /-- the phrase does not start here -/
  | passed
  /-- a fault, and the tokens left when it was found -/
  | failed (fault : Fault) (rest : List Token)

abbrev Reader (α : Type) :=
  List Token → Reading α

namespace Reading

variable {α β : Type}

def andThen (r : Reading α) (otherwise : Reading β) (next : α → List Token → Reading β) :
    Reading β :=
  match r with
  | matched a rest => next a rest
  | passed => otherwise
  | failed fault rest => failed fault rest

@[simp] theorem andThen_matched (r : Reading α) : r.andThen .passed .matched = r := by
  cases r <;> rfl

def map (f : α → β) (r : Reading α) : Reading β :=
  r.andThen passed fun a rest => matched (f a) rest

end Reading

variable {α β : Type}

def take (w : Wanted) (f : Token → α) : Reader α
  | [] => .passed
  | t :: rest => if w.accepts t then .matched (f t) rest else .passed

def takeWord (text : String) (a : α) : Reader α :=
  take ⟨.keyword, some text⟩ fun _ => a

def takeMark (text : String) (a : α) : Reader α :=
  take ⟨.symbol, some text⟩ fun _ => a

def takeName : Reader String :=
  take ⟨.name, none⟩ (·.text)

def either : List (Reader α) → Reader α
  | [], _ => .passed
  | r :: rs, ts => match r ts with
    | .passed => either rs ts
    | reading => reading

theorem either_cons (r : Reader α) (rs : List (Reader α)) (ts : List Token) :
    either (r :: rs) ts = (r ts).andThen (either rs ts) .matched := by
  simp only [either]
  cases r ts <;> rfl

theorem take_eq_passed {kind : Token.Kind} {text : String} {f : Token → α} {t : Token}
    {ts : List Token} :
    take ⟨kind, some text⟩ f (t :: ts) = .passed ↔ t ≠ ⟨kind, text⟩ := by
  simp only [take, Wanted.accepts_eq]
  by_cases same : t = ⟨kind, text⟩
  · simp [same]
  · simp [same]

theorem either_eq_passed {rs : List (Reader α)} {ts : List Token} :
    either rs ts = .passed ↔ ∀ r ∈ rs, r ts = .passed := by
  induction rs with
  | nil => simp [either]
  | cons r rs ih =>
    rw [either_cons, List.forall_mem_cons, ← ih]
    cases r ts <;> simp [Reading.andThen]

/-- As many phrases as there are, up to a bound. -/
def many (r : Reader α) : Nat → Reader (List α)
  | 0, ts => .matched [] ts
  | n + 1, ts => (r ts).andThen (.matched [] ts) fun a rest => (many r n rest).map (a :: ·)

def AddOperator.read : Reader AddOperator :=
  either [takeMark "+" .plus, takeMark "-" .minus]

def MultiplyOperator.read : Reader MultiplyOperator :=
  either [takeMark "*" .times, takeMark "/" .divide]

def Comparator.read : Reader Comparator :=
  either [takeMark "<" .less, takeMark "=" .equal, takeMark ">" .greater]

def Factor.readPlain : Reader Factor :=
  either [take ⟨.name, none⟩ (.name ·.text), take ⟨.number, none⟩ (.number ·.text),
    takeWord "getX" .getX, takeWord "getY" .getY]

def Factor.readParens (inner : Reader Expression) : Reader Factor := fun ts =>
  (takeMark "(" () ts).andThen .passed fun _ ts =>
  (inner ts).andThen (.failed .parenthesized ts) fun e ts =>
  (takeMark ")" () ts).andThen (.failed .unclosedParenthesis ts) fun _ ts =>
  .matched (.parens e) ts

def Factor.read (inner : Reader Expression) : Reader Factor :=
  either [readPlain, readParens inner]

def Factors.read (inner : Reader Expression) : Nat → Reader Factors
  | 0, ts => .matched .nil ts
  | n + 1, ts =>
    (MultiplyOperator.read ts).andThen (.matched .nil ts) fun op ts =>
    (Factor.read inner ts).andThen (.failed .multiplier ts) fun u ts =>
    (Factors.read inner n ts).map (.cons op u)

def readPlainTerm (inner : Reader Expression) (n : Nat) : Reader (Factor × Factors) := fun ts =>
  (Factor.read inner ts).andThen .passed fun u ts =>
  (Factors.read inner n ts).map (u, ·)

def Addends.read (inner : Reader Expression) (m : Nat) : Nat → Reader Addends
  | 0, ts => .matched .nil ts
  | n + 1, ts =>
    (AddOperator.read ts).andThen (.matched .nil ts) fun op ts =>
    (readPlainTerm inner m ts).andThen (.failed .addend ts) fun term ts =>
    (Addends.read inner m n ts).map (.cons op term.1 term.2)

def readSigned (inner : Reader Expression) : Reader (Option AddOperator × Factor) := fun ts =>
  (AddOperator.read ts).andThen ((Factor.read inner ts).map (none, ·)) fun op ts =>
  (Factor.read inner ts).andThen (.failed .signedFactor ts) fun u ts =>
  .matched (some op, u) ts

def readTerm (inner : Reader Expression) (n : Nat) :
    Reader ((Option AddOperator × Factor) × Factors) := fun ts =>
  (readSigned inner ts).andThen .passed fun first ts =>
  (Factors.read inner n ts).map (first, ·)

def Expression.readWith (inner : Reader Expression) (n : Nat) : Reader Expression := fun ts =>
  (readTerm inner n ts).andThen .passed fun term ts =>
  (Addends.read inner n n ts).map (.signed term.1.1 term.1.2 term.2)

def Expression.read : Nat → Reader Expression
  | 0, _ => .passed
  | n + 1, ts => readWith (Expression.read n) n ts

def Condition.read (n : Nat) : Reader Condition := fun ts =>
  (Expression.read n ts).andThen .passed fun left ts =>
  (Comparator.read ts).andThen (.failed .comparator ts) fun op ts =>
  (Expression.read n ts).andThen (.failed .comparedExpression ts) fun right ts =>
  .matched ⟨left, op, right⟩ ts

def takeEndOfLine : Reader String :=
  take ⟨.endOfLine, none⟩ (·.text)

def LineEnd.read (n : Nat) : Reader LineEnd := fun ts =>
  (takeEndOfLine ts).andThen .passed fun first ts =>
  (many takeEndOfLine n ts).map (⟨first, ·⟩)

def closed (n : Nat) (fault : Fault) (f : LineEnd → α) : Reader α := fun ts =>
  (LineEnd.read n ts).andThen (.failed fault ts) fun close ts => .matched (f close) ts

def Shade.readNamed : Reader Shade :=
  either (Palette.all.map fun c => takeWord c.name (.named c))

def Shade.readMixed (n : Nat) : Reader Shade := fun ts =>
  (takeWord "color" () ts).andThen .passed fun _ ts =>
  (Expression.read n ts).andThen (.failed .firstChannel ts) fun red ts =>
  (Expression.read n ts).andThen (.failed .secondChannel ts) fun green ts =>
  (Expression.read n ts).andThen (.failed .thirdChannel ts) fun blue ts =>
  .matched (.mixed red green blue) ts

def Shade.read (n : Nat) : Reader Shade :=
  either [readNamed, readMixed n]

namespace Command

def readMove (n : Nat) : Reader Command := fun ts =>
  (either [takeWord "forward" .forward, takeWord "right" .right, takeWord "left" .left,
    takeWord "face" .face] ts).andThen .passed fun m ts =>
  (Expression.read n ts).andThen (.failed .moveExpression ts) fun e ts =>
  closed n .moveLineEnd (.move m e) ts

def readBare (b : Bare) (n : Nat) : Reader Command := fun ts =>
  (takeWord b.text () ts).andThen .passed fun _ ts =>
  closed n (.wordLineEnd b.text) (.bare b) ts

def readJump (n : Nat) : Reader Command := fun ts =>
  (takeWord "jump" () ts).andThen .passed fun _ ts =>
  (Expression.read n ts).andThen (.failed .jumpFirst ts) fun x ts =>
  (Expression.read n ts).andThen (.failed .jumpSecond ts) fun y ts =>
  closed n .jumpLineEnd (.jump x y) ts

def readAssign (n : Nat) : Reader Command := fun ts =>
  (takeWord "set" () ts).andThen .passed fun _ ts =>
  (takeName ts).andThen (.failed .setVariable ts) fun name ts =>
  (Expression.read n ts).andThen (.failed .setExpression ts) fun e ts =>
  closed n .setLineEnd (.assign name e) ts

def readCall (n : Nat) : Reader Command := fun ts =>
  (takeWord "do" () ts).andThen .passed fun _ ts =>
  (takeName ts).andThen (.failed .doName ts) fun name ts =>
  (many (Expression.read n) n ts).andThen .passed fun arguments ts =>
  closed n .doLineEnd (.call name arguments) ts

def readTimes (block : Reader Block) (n : Nat) : Reader Command := fun ts =>
  (takeWord "repeat" () ts).andThen .passed fun _ ts =>
  (Expression.read n ts).andThen (.failed .repeatExpression ts) fun e ts =>
  (block ts).andThen (.failed .repeatBlock ts) fun body ts =>
  .matched (.times e body) ts

def readLoop (block : Reader Block) (n : Nat) : Reader Command := fun ts =>
  (takeWord "while" () ts).andThen .passed fun _ ts =>
  (Condition.read n ts).andThen (.failed .whileCondition ts) fun c ts =>
  (block ts).andThen (.failed .whileBlock ts) fun body ts =>
  .matched (.loop c body) ts

def readBranch (block : Reader Block) (n : Nat) : Reader Command := fun ts =>
  (takeWord "if" () ts).andThen .passed fun _ ts =>
  (Condition.read n ts).andThen (.failed .ifCondition ts) fun c ts =>
  (block ts).andThen (.failed .ifBlock ts) fun body ts =>
  (takeWord "else" () ts).andThen (.matched (.branch c body) ts) fun _ ts =>
  (block ts).andThen (.failed .elseBlock ts) fun otherwise ts =>
  .matched (.branchElse c body otherwise) ts

def readColor (n : Nat) : Reader Command := fun ts =>
  (Shade.read n ts).andThen .passed fun shade ts =>
  closed n .colorLineEnd (.color shade) ts

def readWorded (block : Reader Block) (n : Nat) : Reader Command :=
  either [readMove n, readBare .penUp n, readBare .penDown n, readBare .home n, readJump n,
    readAssign n, readTimes block n, readLoop block n, readBranch block n, readCall n]

def readWith (block : Reader Block) (n : Nat) : Reader Command :=
  either [readWorded block n, readColor n]

end Command

def Block.readClose (n : Nat) (f : LineEnd → Block) : Reader Block := fun ts =>
  (takeMark "\x7d" () ts).andThen (.failed .blockClosing ts) fun _ ts =>
  closed n .blockEnd f ts

def Block.readOf (command : Reader Command) (n : Nat) : Reader Block := fun ts =>
  (takeMark "\x7b" () ts).andThen .passed fun _ ts =>
  (LineEnd.read n ts).andThen (.failed .blockOpening ts) fun opening ts =>
  (many command n ts).andThen .passed fun commands ts =>
  readClose n (.braces opening (.ofList commands)) ts

def Command.read : Nat → Reader Command
  | 0, _ => .passed
  | n + 1, ts => Command.readWith (Block.readOf (Command.read n) n) (n + 1) ts

def Block.read (n : Nat) : Reader Block :=
  Block.readOf (Command.read n) n

def Procedure.readBody (n : Nat) (name : String) (parameters : List String) :
    Reader Procedure := fun ts =>
  (Block.read n ts).andThen (.failed .procedureBlock ts) fun body ts =>
  .matched ⟨name, parameters, body⟩ ts

def Procedure.read (n : Nat) : Reader Procedure := fun ts =>
  (takeWord "def" () ts).andThen .passed fun _ ts =>
  (takeName ts).andThen (.failed .procedureName ts) fun name ts =>
  (many takeName n ts).andThen .passed fun parameters ts =>
  readBody n name parameters ts

def Script.readTrimmed (n : Nat) (blank : List String) : Reader Script := fun ts =>
  (Command.read n ts).andThen .passed fun first ts =>
  (many (Command.read n) n ts).andThen .passed fun more ts =>
  (many (Procedure.read n) n ts).andThen .passed fun procedures ts =>
  (take ⟨.endOfInput, none⟩ id ts).andThen (.failed .unexpectedTerms ts) fun _ ts =>
  .matched ⟨blank, first, more, procedures⟩ ts

def Script.read (n : Nat) : Reader Script := fun ts =>
  (LineEnd.read n ts).andThen (readTrimmed n [] ts) fun l ts =>
  readTrimmed n (l.first :: l.more) ts

end Phrase

end TurtleGraphics
