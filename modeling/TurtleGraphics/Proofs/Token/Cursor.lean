import TurtleGraphics.Proofs.Token.Delivery

/-!
A feed is a cursor in the list of its tokens. A delivery moves the cursor on and pushing back moves
it back by one, but never twice in a row. The line is that of the token delivered last, whether or
not it has been pushed back.
-/

namespace TurtleGraphics

inductive Cursor.Last
  | nothing
  | delivery
  | pushBack
deriving DecidableEq

structure Cursor where
  place : Nat
  last : Cursor.Last
deriving DecidableEq

namespace Cursor

def start : Cursor :=
  ⟨0, .nothing⟩

/-- The number of the token delivered last, counted from 1, and 0 before any. -/
def latest (c : Cursor) : Nat :=
  match c.last with
  | .nothing => 0
  | .delivery => c.place
  | .pushBack => c.place + 1

def pushedBack (c : Cursor) : Cursor :=
  match c.last with
  | .delivery => ⟨c.place - 1, .pushBack⟩
  | _ => c

def use (ts : List Token) (c : Cursor) : Feed.Use → Feed.Answer × Cursor
  | .next => match ts[c.place]? with
    | some t => (.token t, ⟨c.place + 1, .delivery⟩)
    | none => (.nothing, c)
  | .nextToken => match ts[c.place]? with
    | some t => (.token t, ⟨c.place + 1, .delivery⟩)
    | none => (.failed .exhausted, c)
  | .pushBack => (.done, c.pushedBack)
  | .tokenize =>
    (.tokens (ts.drop c.place), if c.place < ts.length then ⟨ts.length, .delivery⟩ else c)

def useAll (ts : List Token) (c : Cursor) (us : List Feed.Use) : Cursor :=
  us.foldl (fun c u => (c.use ts u).2) c

theorem useAll_concat (ts : List Token) (c : Cursor) (us : List Feed.Use) (u : Feed.Use) :
    c.useAll ts (us ++ [u]) = ((c.useAll ts us).use ts u).2 := by
  simp [useAll]

end Cursor

namespace Feed

/-- The line that is reported once so many tokens have been delivered one after the other. -/
def lineAfter (f : Feed) (count : Nat) : Nat :=
  (f.useAll (List.replicate count .next)).tokenLine

inductive StandsAt (xs : List Lexeme) : Cursor → Feed → Prop
  | fresh : StandsAt xs ⟨0, .nothing⟩ ⟨.nothing, xs⟩
  | delivered {before after : List Lexeme} {x : Lexeme} (whole : xs = before ++ x :: after) :
    StandsAt xs ⟨before.length + 1, .delivery⟩ ⟨.delivered x, after⟩
  | due {before after : List Lexeme} {x : Lexeme} (whole : xs = before ++ x :: after) :
    StandsAt xs ⟨before.length, .pushBack⟩ ⟨.due x, after⟩

namespace StandsAt

variable {xs : List Lexeme} {c : Cursor} {f : Feed}

theorem ahead (h : StandsAt xs c f) : f.ahead = xs.drop c.place := by
  cases h with
  | fresh => rfl
  | delivered whole => simp [Feed.ahead, whole]
  | due whole => simp [Feed.ahead, whole]

theorem remaining (h : StandsAt xs c f) : f.remaining = (xs.map (·.token)).drop c.place := by
  rw [Feed.remaining, h.ahead, List.map_drop]

theorem place_le (h : StandsAt xs c f) : c.place ≤ xs.length := by
  cases h with
  | fresh => exact Nat.zero_le _
  | delivered whole => simp [whole]
  | due whole => simp [whole]

theorem hasNext (h : StandsAt xs c f) : f.hasNext = decide (c.place < xs.length) := by
  rw [Bool.eq_iff_iff, hasNext_iff, decide_eq_true_iff, h.remaining]
  simp

/-- The next token is the one at the place of the cursor. -/
theorem next? (h : StandsAt xs c f) :
    f.next? = xs[c.place]?.map fun x => (x.token, ⟨.delivered x, xs.drop (c.place + 1)⟩) := by
  unfold Feed.next?
  rw [h.ahead]
  by_cases inside : c.place < xs.length
  · rw [List.drop_eq_getElem_cons inside, List.getElem?_eq_getElem inside]
    rfl
  · have past : xs.length ≤ c.place := Nat.le_of_not_lt inside
    rw [List.drop_eq_nil_of_le past, List.getElem?_eq_none past]
    rfl

theorem of_place {place : Nat} (inside : place < xs.length) :
    StandsAt xs ⟨place + 1, .delivery⟩ ⟨.delivered xs[place], xs.drop (place + 1)⟩ := by
  have whole : xs = xs.take place ++ xs[place] :: xs.drop (place + 1) := by
    rw [← List.drop_eq_getElem_cons inside, List.take_append_drop]
  have length : (xs.take place).length = place := List.length_take_of_le (Nat.le_of_lt inside)
  have stands := StandsAt.delivered whole
  rwa [length] at stands

theorem drained (h : StandsAt xs c f) :
    StandsAt xs (if c.place < xs.length then ⟨xs.length, .delivery⟩ else c) f.drained := by
  unfold Feed.drained
  rw [h.ahead, List.getLast?_drop]
  by_cases inside : c.place < xs.length
  · have nonempty : xs ≠ [] := by
      rintro rfl
      cases inside
    have last := (List.dropLast_concat_getLast nonempty).symm
    have stands := StandsAt.delivered last
    have length : xs.dropLast.length + 1 = xs.length := by
      rw [List.length_dropLast]
      omega
    rw [length] at stands
    rw [if_pos inside, if_neg (by omega), List.getLast?_eq_some_getLast nonempty]
    exact stands
  · rw [if_neg inside, if_pos (by omega)]
    exact h

/-- A use of the feed is one of the cursor. -/
theorem use (h : StandsAt xs c f) (u : Use) :
    (f.use u).1 = (c.use (xs.map (·.token)) u).1 ∧
      StandsAt xs (c.use (xs.map (·.token)) u).2 (f.use u).2 := by
  cases u with
  | next | nextToken =>
    simp only [Feed.use, Cursor.use, h.next?, List.getElem?_map]
    by_cases inside : c.place < xs.length
    · rw [List.getElem?_eq_getElem inside]
      exact ⟨rfl, of_place inside⟩
    · rw [List.getElem?_eq_none (Nat.le_of_not_lt inside)]
      exact ⟨rfl, h⟩
  | pushBack =>
    refine ⟨rfl, ?_⟩
    cases h with
    | fresh => exact .fresh
    | delivered whole => exact .due whole
    | due whole => exact .due whole
  | tokenize =>
    simp only [Feed.use, Cursor.use, h.remaining, List.length_map, true_and]
    exact h.drained

theorem useAll (h : StandsAt xs c f) (us : List Use) :
    StandsAt xs (c.useAll (xs.map (·.token)) us) (f.useAll us) := by
  induction us generalizing c f with
  | nil => exact h
  | cons u us ih => exact ih (h.use u).2

/-- With nothing ahead a use changes nothing, unless it pushes back. -/
theorem use_at_end (h : StandsAt xs c f) (past : c.place = xs.length) {u : Use}
    (other : u ≠ .pushBack) : (f.use u).2 = f := by
  have dry : f.next? = none := by
    rw [h.next?, past, List.getElem?_eq_none (Nat.le_refl _), Option.map_none]
  cases u with
  | next | nextToken => simp only [Feed.use, dry]
  | pushBack => exact absurd rfl other
  | tokenize => simp [Feed.use, Feed.drained, h.ahead, past]

theorem pushBack_eq_self (h : StandsAt xs c f) (other : c.last ≠ .delivery) : f.pushBack = f := by
  cases h with
  | fresh => rfl
  | delivered whole => exact absurd rfl other
  | due whole => rfl

theorem latest_le (h : StandsAt xs c f) : c.latest ≤ xs.length := by
  cases h with
  | fresh => exact Nat.zero_le _
  | delivered whole => simp [Cursor.latest, whole]
  | due whole => simp [Cursor.latest, whole]

/-- The line is that of the token delivered last. -/
theorem tokenLine (h : StandsAt xs c f) :
    f.tokenLine = if c.latest = 0 then 1 else (xs[c.latest - 1]?).elim 1 (·.line) := by
  cases h with
  | fresh => rfl
  | delivered whole => simp [Feed.tokenLine, Latest.lexeme?, Cursor.latest, whole]
  | due whole => simp [Feed.tokenLine, Latest.lexeme?, Cursor.latest, whole]

end StandsAt

structure Obeys (fresh : Feed) (ts : List Token) (c : Cursor) (f : Feed) : Prop where
  inside : c.place ≤ ts.length
  answers : ∀ u, (f.use u).1 = (c.use ts u).1
  hasNext : f.hasNext = true ↔ c.place < ts.length
  exhausted : (f.use .nextToken).1 = .failed .exhausted ↔ f.hasNext = false
  /-- at the end only pushing back does anything -/
  idle : c.place = ts.length → ∀ u, u ≠ .pushBack → (f.use u).2 = f
  /-- only after a delivery does pushing back do anything -/
  kept : c.last ≠ .delivery → f.pushBack = f
  tokenLine : f.tokenLine = fresh.lineAfter c.latest

/-- As many deliveries as there are tokens can be made one after the other. -/
theorem latest_deliveries {ts : List Token} {count : Nat} (enough : count ≤ ts.length) :
    Cursor.start.useAll ts (List.replicate count .next) =
      ⟨count, if count = 0 then .nothing else .delivery⟩ := by
  induction count with
  | zero => rfl
  | succ count ih =>
    have inside : count < ts.length := enough
    rw [List.replicate_succ', Cursor.useAll_concat, ih (Nat.le_of_lt inside)]
    simp [Cursor.use, List.getElem?_eq_getElem inside]

theorem StandsAt.lineAfter {xs : List Lexeme} {f : Feed} (h : StandsAt xs .start f) {count : Nat}
    (enough : count ≤ xs.length) :
    f.lineAfter count = if count = 0 then 1 else (xs[count - 1]?).elim 1 (·.line) := by
  have stands := h.useAll (List.replicate count .next)
  have present : count ≤ (xs.map (·.token)).length := by simpa using enough
  rw [latest_deliveries present] at stands
  rw [Feed.lineAfter, stands.tokenLine]
  cases count <;> rfl

/-- However a fresh feed is used, it does what a cursor in the list of its tokens does. -/
theorem ofSource_obeys_cursor (keywords : List String) (source : String) :
    let fresh := ofSource keywords source
    ∃ ts, (fresh.use .tokenize).1 = .tokens ts ∧ fresh.tokenLine = 1 ∧
      ∀ us, Obeys fresh ts (Cursor.start.useAll ts us) (fresh.useAll us) := by
  intro fresh
  let xs := Lexeme.ofSource keywords source
  have first : StandsAt xs .start fresh := .fresh
  refine ⟨xs.map (·.token), rfl, rfl, fun us => ?_⟩
  have stands := first.useAll us
  have length : (xs.map (·.token)).length = xs.length := List.length_map _
  constructor
  · exact length ▸ stands.place_le
  · exact fun u => (stands.use u).1
  · rw [stands.hasNext, decide_eq_true_iff, length]
  · rw [(stands.use .nextToken).1, stands.hasNext, decide_eq_false_iff_not, ← length]
    simp only [Cursor.use]
    split
    · rename_i t there
      simpa using (List.getElem?_eq_some_iff.mp there).1
    · rename_i none
      simpa using none
  · exact fun past u other => stands.use_at_end (past.trans length) other
  · exact stands.pushBack_eq_self
  · rw [stands.tokenLine, first.lineAfter stands.latest_le]

end Feed

end TurtleGraphics
