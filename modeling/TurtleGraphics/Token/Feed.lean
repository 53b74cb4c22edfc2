import TurtleGraphics.Token.Lexeme

/-!
A feed hands out the tokens of a source one by one. The token delivered last can be pushed back
and is then delivered once more; pushing back again before that changes nothing. Every step is
pinned down by what it does to the tokens still to be delivered.
-/

namespace TurtleGraphics

inductive Feed.Latest
  | nothing
  | delivered (x : Lexeme)
  | due (x : Lexeme)
deriving DecidableEq

structure Feed where
  latest : Feed.Latest
  /-- what has never been delivered -/
  pending : List Lexeme
deriving DecidableEq

namespace Feed

inductive Error
  | exhausted
deriving DecidableEq

def Error.message : Error → String
  | exhausted => "no tokens remain; callers must check has_next() first"

def Latest.lexeme? : Latest → Option Lexeme
  | nothing => none
  | delivered x | due x => some x

def ofSource (keywords : List String) (source : String) : Feed :=
  ⟨.nothing, Lexeme.ofSource keywords source⟩

/-- What is still to be delivered. -/
def ahead (f : Feed) : List Lexeme :=
  match f.latest with
  | .due x => x :: f.pending
  | _ => f.pending

def remaining (f : Feed) : List Token :=
  f.ahead.map (·.token)

def hasNext (f : Feed) : Bool :=
  !f.ahead.isEmpty

def next? (f : Feed) : Option (Token × Feed) :=
  match f.ahead with
  | [] => none
  | x :: rest => some (x.token, ⟨.delivered x, rest⟩)

def pushBack (f : Feed) : Feed :=
  match f.latest.lexeme? with
  | none => f
  | some x => { f with latest := .due x }

def drained (f : Feed) : Feed :=
  match f.ahead.getLast? with
  | none => f
  | some x => ⟨.delivered x, []⟩

/-- The line reached in the source. Pushing back does not go back in the source. -/
def line (f : Feed) : Nat :=
  f.latest.lexeme?.elim 1 (·.lineAfter)

def tokenLine (f : Feed) : Nat :=
  f.latest.lexeme?.elim 1 (·.line)

theorem next?_eq_none_iff {f : Feed} : f.next? = none ↔ f.remaining = [] := by
  simp only [next?, remaining]
  cases f.ahead <;> simp

theorem ahead_of_next? {f g : Feed} {t : Token} (h : f.next? = some (t, g)) :
    f.ahead = ⟨t, g.tokenLine⟩ :: g.ahead := by
  simp only [next?] at h
  split at h
  · cases h
  · rename_i x rest ahead
    cases h
    exact ahead

theorem remaining_of_next? {f g : Feed} {t : Token} (h : f.next? = some (t, g)) :
    f.remaining = t :: g.remaining := by
  rw [remaining, ahead_of_next? h, List.map_cons]
  rfl

theorem hasNext_iff {f : Feed} : f.hasNext = true ↔ f.remaining ≠ [] := by
  simp [hasNext, remaining]

/-- A token pushed back is the one that comes next, and leads to the same feed again. -/
theorem next?_pushBack_of_next? {f g : Feed} {t : Token} (h : f.next? = some (t, g)) :
    g.pushBack.next? = some (t, g) := by
  simp only [next?] at h
  split at h
  · contradiction
  · obtain ⟨rfl, rfl⟩ := Prod.mk.inj (Option.some.inj h)
    rfl

theorem pushBack_pushBack (f : Feed) : f.pushBack.pushBack = f.pushBack := by
  obtain ⟨latest, pending⟩ := f
  cases latest <;> rfl

@[simp] theorem tokenLine_pushBack (f : Feed) : f.pushBack.tokenLine = f.tokenLine := by
  obtain ⟨latest, pending⟩ := f
  cases latest <;> rfl

inductive Use
  | next
  | nextToken
  | pushBack
  | tokenize
deriving DecidableEq

inductive Answer
  | token (t : Token)
  | nothing
  | failed (e : Error)
  | done
  | tokens (ts : List Token)
deriving DecidableEq

def use (f : Feed) : Use → Answer × Feed
  | .next => match f.next? with
    | some (t, f) => (.token t, f)
    | none => (.nothing, f)
  | .nextToken => match f.next? with
    | some (t, f) => (.token t, f)
    | none => (.failed .exhausted, f)
  | .pushBack => (.done, f.pushBack)
  | .tokenize => (.tokens f.remaining, f.drained)

end Feed

end TurtleGraphics
