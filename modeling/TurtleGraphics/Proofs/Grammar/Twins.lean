import TurtleGraphics.Grammar.Command
import TurtleGraphics.Proofs.Grammar.Stack

/-!
Two readings side by side, of texts that differ in nothing but how many line ends follow one
another. They go through the same steps: what a rule does depends on the next token, on the forest
and on the stack, and it meets line ends only where it uses up all of them. The bounds of the two
readings differ, so both have to leave room for the tokens to come.
-/

namespace TurtleGraphics

namespace Token

def isLineEnd (t : Token) : Bool :=
  t.kind == .endOfLine

/-- Line ends that follow one another are made one. -/
def dense : List Token → List Token
  | [] => []
  | t :: ts => if t.isLineEnd && ts.head?.any isLineEnd then dense ts else t :: dense ts

variable {t : Token} {ts us : List Token}

theorem dense_cons (other : t.isLineEnd = false) : dense (t :: ts) = t :: dense ts := by
  simp [dense, other]

theorem head?_dense (ts : List Token) :
    (dense ts).head?.any isLineEnd = ts.head?.any isLineEnd := by
  induction ts with
  | nil => rfl
  | cons t ts ih =>
    rw [dense]
    split
    · rename_i both
      obtain ⟨here, next⟩ := Bool.and_eq_true_iff.mp both
      rw [ih, next, List.head?_cons, Option.any_some, here]
    · rfl

theorem dropWhile_dense (ts : List Token) :
    (dense ts).dropWhile isLineEnd = dense (ts.dropWhile isLineEnd) := by
  induction ts with
  | nil => rfl
  | cons t ts ih =>
    cases here : t.isLineEnd with
    | false => simp [dense_cons, here]
    | true =>
      rw [dense]
      split <;> simp [here, ih]

theorem eq_cons_of_dense (same : dense us = dense (t :: ts)) (other : t.isLineEnd = false) :
    ∃ us', us = t :: us' ∧ dense us' = dense ts := by
  have head := head?_dense us
  rw [same, dense_cons other] at head
  rw [dense_cons other] at same
  cases us with
  | nil => cases same
  | cons u us =>
    have here : u.isLineEnd = false := by simpa [other] using head.symm
    rw [dense_cons here] at same
    obtain ⟨rfl, rest⟩ := List.cons.inj same
    exact ⟨us, rfl, rest⟩

/-- Next comes the same token, or a line end or nothing in both. -/
theorem dense_cases (same : dense us = dense ts) :
    (∃ t ts' us', ts = t :: ts' ∧ us = t :: us' ∧ dense us' = dense ts') ∨
      (∀ t ∈ ts.head?, t.isLineEnd = true) ∧ ∀ u ∈ us.head?, u.isLineEnd = true := by
  by_cases ends : ∀ t ∈ ts.head?, t.isLineEnd = true
  · by_cases ends' : ∀ u ∈ us.head?, u.isLineEnd = true
    · exact .inr ⟨ends, ends'⟩
    · cases us with
      | nil => simp at ends'
      | cons u us =>
        obtain ⟨ts', rfl, rest⟩ := eq_cons_of_dense same.symm (by simpa using ends')
        exact .inl ⟨u, ts', us, rfl, rfl, rest.symm⟩
  · cases ts with
    | nil => simp at ends
    | cons t ts =>
      obtain ⟨us', rfl, rest⟩ := eq_cons_of_dense same (by simpa using ends)
      exact .inl ⟨t, ts, us', rfl, rfl, rest⟩

end Token

namespace Feed

def left (f : Feed) : Nat :=
  f.remaining.countP fun t => t.kind != .endOfInput

variable {f g : Feed} {t : Token}

theorem left_le (next : f.remaining = t :: g.remaining) : g.left ≤ f.left := by
  rw [left, left, next, List.countP_cons]
  exact Nat.le_add_right _ _

theorem left_dropWhile (rest : g.remaining = f.remaining.dropWhile Token.isLineEnd) :
    g.left ≤ f.left := by
  rw [left, left, rest]
  exact (List.dropWhile_sublist _).countP_le

theorem left_lt (next : f.remaining = t :: g.remaining) (inside : t.kind ≠ .endOfInput) :
    g.left < f.left := by
  rw [left, left, next, List.countP_cons_of_pos (by simpa using inside)]
  exact Nat.lt_succ_self _

end Feed

namespace Grammar

open Token (dense isLineEnd)

theorem takeToken_wanted {w : Wanted} {s : State} {t : Token} {ts : List Token}
    (next : s.feed.remaining = t :: ts) (wanted : w.accepts t = true) :
    ∃ feed, takeToken w s = .ok (some t) { s with feed } ∧ feed.remaining = ts := by
  rw [takeToken, get_bind]
  cases step : s.feed.next? with
  | none =>
    rw [Feed.next?_eq_none_iff.mp step] at next
    cases next
  | some came =>
    obtain ⟨u, feed⟩ := came
    rw [Feed.remaining_of_next? step] at next
    obtain ⟨rfl, rest⟩ := List.cons.inj next
    refine ⟨feed, ?_, rest⟩
    dsimp only
    rw [if_pos wanted]
    rfl

theorem takeToken_unwanted {w : Wanted} {s : State}
    (unwanted : ∀ t ∈ s.feed.remaining.head?, w.accepts t = false) :
    ∃ feed, takeToken w s = .ok none { s with feed } ∧ feed.remaining = s.feed.remaining := by
  have outcome := took w s
  generalize takeToken w s = result at outcome
  cases outcome with
  | @taken t line feed wanted tokens =>
    have next : s.feed.remaining.head? = some t := by rw [Feed.remaining, tokens]; rfl
    rw [unwanted t next] at wanted
    cases wanted
  | left same peeked => exact ⟨_, rfl, congrArg (List.map Lexeme.token) same⟩

theorem accepts_lineEnd (t : Token) :
    (⟨.endOfLine, none⟩ : Wanted).accepts t = t.isLineEnd := by
  rw [Wanted.accepts, Option.all_none, Bool.and_true, isLineEnd]

theorem accept_of_takeToken {w : Wanted} {s s' : State} {found : Option Token}
    (done : takeToken w s = .ok found s') : accept w s = .ok found.isSome s' :=
  bind_of_ok done

def State.atLineEnd (s : State) : Bool :=
  s.feed.remaining.head?.any isLineEnd

theorem accept_otherwise {s : State} (other : s.atLineEnd = false) :
    ∃ feed, accept ⟨.endOfLine, none⟩ s = .ok false { s with feed } ∧
      feed.remaining = s.feed.remaining.dropWhile isLineEnd := by
  have unwanted : ∀ t ∈ s.feed.remaining.head?,
      (⟨.endOfLine, none⟩ : Wanted).accepts t = false := by
    intro t next
    rw [State.atLineEnd, Option.mem_def.mp next] at other
    rw [accepts_lineEnd]
    exact other
  have none_there : s.feed.remaining.dropWhile isLineEnd = s.feed.remaining := by
    unfold State.atLineEnd at other
    cases next : s.feed.remaining with
    | nil => rfl
    | cons t ts =>
      rw [next] at other
      exact List.dropWhile_cons_of_neg (by simpa using other)
  obtain ⟨feed, done, same⟩ := takeToken_unwanted unwanted
  exact ⟨feed, accept_of_takeToken done, same.trans none_there.symm⟩

theorem accept_lineEnd {s : State} (there : s.atLineEnd = true) :
    ∃ feed, accept ⟨.endOfLine, none⟩ s = .ok true { s with feed } ∧
      feed.remaining.dropWhile isLineEnd = s.feed.remaining.dropWhile isLineEnd ∧
      feed.left < s.feed.left := by
  unfold State.atLineEnd at there
  cases next : s.feed.remaining with
  | nil =>
    rw [next] at there
    cases there
  | cons t ts =>
    rw [next] at there
    have ends : t.isLineEnd = true := there
    obtain ⟨feed, done, rest⟩ := takeToken_wanted next ((accepts_lineEnd t).trans ends)
    have inside : t.kind ≠ .endOfInput := by
      rw [isLineEnd, beq_iff_eq] at ends
      rw [ends]
      exact Token.Kind.noConfusion
    refine ⟨feed, accept_of_takeToken done, ?_, Feed.left_lt (rest ▸ next) inside⟩
    rw [rest, List.dropWhile_cons_of_pos ends]

theorem skipLineEnds_all (n : Nat) (s : State) (room : s.feed.left < n) :
    ∃ feed, skipLineEnds n s = .ok () { s with feed } ∧
      feed.remaining = s.feed.remaining.dropWhile isLineEnd := by
  induction n generalizing s with
  | zero => exact absurd room (Nat.not_lt_zero _)
  | succ n ih =>
    rw [skipLineEnds]
    cases there : s.atLineEnd with
    | false =>
      obtain ⟨feed, done, rest⟩ := accept_otherwise there
      rw [bind_of_ok done]
      exact ⟨feed, rfl, rest⟩
    | true =>
      obtain ⟨feed, done, same, fewer⟩ := accept_lineEnd there
      rw [bind_of_ok done]
      obtain ⟨after, more, rest⟩ := ih { s with feed } (by simp only; omega)
      exact ⟨after, more, rest.trans same⟩

/-- All line ends that come next are used up. -/
theorem lineEnd_all (n : Nat) (s : State) (room : s.feed.left < n) :
    ∃ feed, lineEnd n s = .ok s.atLineEnd { s with feed } ∧
      feed.remaining = s.feed.remaining.dropWhile isLineEnd ∧
      (s.atLineEnd = true → feed.left < s.feed.left) := by
  rw [lineEnd]
  cases there : s.atLineEnd with
  | false =>
    obtain ⟨feed, done, rest⟩ := accept_otherwise there
    rw [bind_of_ok done]
    exact ⟨feed, rfl, rest, nofun⟩
  | true =>
    obtain ⟨feed, done, same, fewer⟩ := accept_lineEnd there
    rw [bind_of_ok done]
    obtain ⟨after, more, rest⟩ := skipLineEnds_all n { s with feed } (by simp only; omega)
    refine ⟨after, bind_of_ok more, rest.trans same, fun _ => ?_⟩
    exact Nat.lt_of_le_of_lt (Feed.left_dropWhile rest) fewer

structure Twins where
  first : Feed
  second : Feed
  forest : Forest Node
  stack : List Nat
  tokens : dense second.remaining = dense first.remaining

namespace Twins

def one (t : Twins) : State :=
  ⟨t.first, t.forest, t.stack⟩

def other (t : Twins) : State :=
  ⟨t.second, t.forest, t.stack⟩

theorem dense_eq (t : Twins) : dense t.other.feed.remaining = dense t.one.feed.remaining :=
  t.tokens

/-- There are fewer tokens left than the bounds, so neither reading can come to its bound while the
other goes on. -/
def Within (n m : Nat) (t : Twins) : Prop :=
  t.first.left < n ∧ t.second.left < m

def Past (t t' : Twins) : Prop :=
  t'.Within t.first.left t.second.left

def Since (t t' : Twins) : Prop :=
  t'.Within (t.first.left + 1) (t.second.left + 1)

variable {t t' t'' : Twins} {n m : Nat}

theorem Within.since (room : t.Within n m) (since : t.Since t') : t'.Within n m := by
  unfold Since Within at *
  omega

theorem Within.past (room : t.Within (n + 1) (m + 1)) (past : t.Past t') : t'.Within n m := by
  unfold Past Within at *
  omega

theorem Within.succ (room : t.Within n m) : t.Within (n + 1) (m + 1) := by
  unfold Within at *
  omega

theorem Since.refl (t : Twins) : t.Since t :=
  ⟨Nat.lt_succ_self _, Nat.lt_succ_self _⟩

theorem Past.since (past : t.Past t') : t.Since t' :=
  ⟨Nat.lt_succ_of_lt past.1, Nat.lt_succ_of_lt past.2⟩

theorem Since.trans (since : t.Since t') (further : t'.Since t'') : t.Since t'' := by
  unfold Since Within at *
  omega

theorem Past.on (past : t.Past t') (further : t'.Since t'') : t.Past t'' := by
  unfold Past Since Within at *
  omega

theorem Since.past (since : t.Since t') (further : t'.Past t'') : t.Past t'' := by
  unfold Past Since Within at *
  omega

end Twins

inductive Both {α : Type} (good : α → Twins → Prop) :
    EStateM.Result SyntaxError State α → EStateM.Result SyntaxError State α → Prop
  | ok {a : α} (t : Twins) (holds : good a t) : Both good (.ok a t.one) (.ok a t.other)
  | failed {e d : SyntaxError} {s r : State} (fault : d.fault = e.fault)
    (stack : d.stack = e.stack) : Both good (.error e s) (.error d r)

section Both

variable {α β : Type} {good : α → Twins → Prop} {good' : β → Twins → Prop} {x y : Rule α}

theorem Both.bind {s r : State} (both : Both good (x s) (y r)) {k l : α → Rule β}
    (next : ∀ a t, good a t → Both good' (k a t.one) (l a t.other)) :
    Both good' ((x >>= k) s) ((y >>= l) r) := by
  change Both good' (EStateM.bind x k s) (EStateM.bind y l r)
  unfold EStateM.bind
  generalize x s = result at both
  generalize y r = result' at both
  cases both with
  | ok t holds => exact next _ t holds
  | failed fault stack => exact .failed fault stack

theorem Both.imp {also : α → Twins → Prop} {r r' : EStateM.Result SyntaxError State α}
    (both : Both good r r') (more : ∀ a t', good a t' → also a t') : Both also r r' := by
  cases both with
  | ok t' holds => exact .ok t' (more _ t' holds)
  | failed fault stack => exact .failed fault stack

theorem both_fail (t : Twins) (fault : Fault) :
    Both good (fail fault t.one) (fail fault t.other) :=
  .failed rfl rfl

end Both

theorem Wanted.kind_of_accepts {w : Wanted} {t : Token} (wanted : w.accepts t = true) :
    t.kind = w.kind :=
  eq_of_beq (Bool.and_eq_true_iff.mp wanted).1

def Wanted.onLine (w : Wanted) : Bool :=
  w.kind != .endOfLine && w.kind != .endOfInput

theorem Wanted.kind_of_onLine {w : Wanted} (inside : w.onLine = true) :
    w.kind ≠ .endOfLine ∧ w.kind ≠ .endOfInput := by
  simpa [onLine] using inside

def Taken (w : Wanted) (t : Twins) (found : Option Token) (t' : Twins) : Prop :=
  t.Since t' ∧ (w.kind ≠ .endOfInput → found.isSome = true → t.Past t')

theorem takeToken_neither {w : Wanted} {t : Twins}
    (unwanted : ∀ x ∈ t.first.remaining.head?, w.accepts x = false)
    (unwanted' : ∀ x ∈ t.second.remaining.head?, w.accepts x = false) :
    Both (Taken w t) (takeToken w t.one) (takeToken w t.other) := by
  obtain ⟨first, done, same⟩ := takeToken_unwanted (s := t.one) unwanted
  obtain ⟨second, done', same'⟩ := takeToken_unwanted (s := t.other) unwanted'
  have tokens : dense second.remaining = dense first.remaining := by
    rw [same, same']
    exact t.tokens
  have left : first.left = t.first.left := congrArg (List.countP _) same
  have left' : second.left = t.second.left := congrArg (List.countP _) same'
  have since : t.Since { t with first, second, tokens } :=
    ⟨Nat.lt_succ_of_le left.le, Nat.lt_succ_of_le left'.le⟩
  rw [done, done']
  exact .ok { t with first, second, tokens } ⟨since, nofun⟩

theorem takeToken_both {w : Wanted} (other : w.kind ≠ .endOfLine) (t : Twins) :
    Both (Taken w t) (takeToken w t.one) (takeToken w t.other) := by
  rcases Token.dense_cases t.tokens with ⟨x, ts, us, next, next', tokens⟩ | ⟨ends, ends'⟩
  · cases wanted : w.accepts x with
    | false =>
      apply takeToken_neither
      · simpa [next] using wanted
      · simpa [next'] using wanted
    | true =>
      obtain ⟨first, done, same⟩ := takeToken_wanted (s := t.one) next wanted
      obtain ⟨second, done', same'⟩ := takeToken_wanted (s := t.other) next' wanted
      subst same same'
      have kind := Wanted.kind_of_accepts wanted
      rw [done, done']
      refine .ok { t with first, second, tokens } ⟨⟨?_, ?_⟩, fun inside _ => ⟨?_, ?_⟩⟩
      · exact Nat.lt_succ_of_le (Feed.left_le next)
      · exact Nat.lt_succ_of_le (Feed.left_le next')
      · exact Feed.left_lt next (kind ▸ inside)
      · exact Feed.left_lt next' (kind ▸ inside)
  · have unwanted : ∀ x : Token, x.isLineEnd = true → w.accepts x = false := by
      intro x ends
      rw [isLineEnd, beq_iff_eq] at ends
      by_contra wanted
      exact other ((Wanted.kind_of_accepts (by simpa using wanted)).symm.trans ends)
    apply takeToken_neither
    · exact fun x there => unwanted x (ends x there)
    · exact fun x there => unwanted x (ends' x there)

/-- The answer tells whether a token has been used up. -/
def Told (t : Twins) (matched : Bool) (t' : Twins) : Prop :=
  if matched = true then t.Past t' else t.Since t'

/-- Both rules come to the same from states that differ in line ends only, if there are fewer tokens
left than the bounds. -/
def Alike (n m : Nat) (rule rule' : Rule Bool) : Prop :=
  ∀ t : Twins, t.Within n m → Both (Told t) (rule t.one) (rule' t.other)

variable {n m : Nat} {rule rule' : Rule Bool}

theorem accept_both {w : Wanted} (other : w.kind ≠ .endOfLine) (t : Twins) :
    Both (fun _ => t.Since) (accept w t.one) (accept w t.other) := by
  apply (takeToken_both other t).bind
  intro found t' taken
  exact .ok t' taken.1

theorem accept_alike (w : Wanted) (inside : w.onLine = true) :
    Alike n m (accept w) (accept w) := by
  obtain ⟨notLineEnd, notEnd⟩ := Wanted.kind_of_onLine inside
  intro t room
  apply (takeToken_both notLineEnd t).bind
  rintro (_ | x) t' ⟨since, past⟩
  · exact .ok t' since
  · exact .ok t' (past notEnd rfl)

theorem leaf_alike (w : Wanted) (inside : w.onLine = true) : Alike n m (leaf w) (leaf w) := by
  obtain ⟨notLineEnd, notEnd⟩ := Wanted.kind_of_onLine inside
  intro t room
  apply (takeToken_both notLineEnd t).bind
  rintro (_ | x) t' ⟨since, past⟩
  · exact .ok t' since
  · let grown := t'.forest.leaf (.ofToken x)
    exact .ok { t' with forest := grown.2, stack := grown.1 :: t'.stack } (past notEnd rfl)

theorem lineEnd_alike : Alike n m (lineEnd n) (lineEnd m) := by
  intro t room
  obtain ⟨first, done, rest, fewer⟩ := lineEnd_all n t.one room.1
  obtain ⟨second, done', rest', fewer'⟩ := lineEnd_all m t.other room.2
  have same : t.other.atLineEnd = t.one.atLineEnd := by
    rw [State.atLineEnd, State.atLineEnd, ← Token.head?_dense, t.dense_eq, Token.head?_dense]
  have tokens : dense second.remaining = dense first.remaining := by
    rw [rest, rest', ← Token.dropWhile_dense, ← Token.dropWhile_dense, t.dense_eq]
  rw [done, done', same]
  refine .ok { t with first, second, tokens } ?_
  unfold Told
  split
  · rename_i there
    exact ⟨fewer there, fewer' (same.trans there)⟩
  · exact ⟨Nat.lt_succ_of_le (Feed.left_dropWhile rest),
      Nat.lt_succ_of_le (Feed.left_dropWhile rest')⟩

/-- Rules that go one deeper for one more token of room. With no room there is nothing to show. -/
theorem alike_of_steps {rules : Nat → Rule Bool}
    (step : ∀ n m, Alike n m (rules n) (rules m) →
      Alike (n + 1) (m + 1) (rules (n + 1)) (rules (m + 1))) (n m : Nat) :
    Alike n m (rules n) (rules m) := by
  induction n generalizing m with
  | zero => exact fun _ room => absurd room.1 (Nat.not_lt_zero _)
  | succ n ih =>
    cases m with
    | zero => exact fun _ room => absurd room.2 (Nat.not_lt_zero _)
    | succ m => exact step n m (ih m)

section Trees

variable {α β : Type}

def Apart (rule : Rule α) : Prop :=
  ∀ t : Twins, Both (fun _ => t.Since) (rule t.one) (rule t.other)

theorem pop_apart : Apart pop := by
  rintro ⟨first, second, forest, stack, tokens⟩
  rw [pop, get_bind, get_bind]
  cases stack with
  | nil => exact both_fail _ .emptyStack
  | cons h rest => exact .ok ⟨first, second, forest, rest, tokens⟩ (.refl _)

theorem push_apart (h : Nat) : Apart (push h) := fun t =>
  .ok { t with stack := h :: t.stack } (.refl t)

theorem group_apart (g : Node.Group) (hs : List Nat) : Apart (group g hs) := by
  intro t
  rw [group, get_bind, get_bind]
  simp only [Twins.one, Twins.other]
  cases t.forest.node (.ofGroup g) hs with
  | ok made => exact .ok { t with forest := made.2 } (.refl t)
  | error e => exact both_fail t (.refused e)

theorem compose_apart (root : Nat) (children : List Nat) : Apart (compose root children) := by
  intro t
  rw [compose, get_bind, get_bind]
  by_cases shallow : t.one.stack.length < children.length + 1
  · have too_shallow : t.other.stack.length < children.length + 1 := shallow
    rw [if_pos shallow, if_pos too_shallow]
    exact both_fail t .shallowStack
  have deep : ¬ t.other.stack.length < children.length + 1 := shallow
  rw [if_neg shallow, if_neg deep]
  by_cases bad : (!arePositions (root :: children)) = true
  · rw [if_pos bad, if_pos bad]
    exact both_fail t (.badPositions root children)
  rw [if_neg bad, if_neg bad, modify_bind, modify_bind, get_bind, get_bind]
  simp only [Twins.one, Twins.other]
  let t' : Twins := { t with stack := t.stack.drop (children.length + 1) }
  cases t.forest.addChildren (t.stack.getD (root - 1) 0)
    (children.map fun n => t.stack.getD (n - 1) 0) with
  | ok forest =>
    exact .ok { t' with forest, stack := t.stack.getD (root - 1) 0 :: t'.stack } (.refl t)
  | error e => exact both_fail t' (.refused e)

end Trees

section Steps

variable {α : Type} {good : α → Twins → Prop} {t t' : Twins}

theorem Apart.next {β : Type} {step : Rule β} (apart : Apart step) (past : t.Past t')
    {k l : β → Rule α} (yes : ∀ b t'', t.Past t'' → Both good (k b t''.one) (l b t''.other)) :
    Both good ((step >>= k) t'.one) ((step >>= l) t'.other) :=
  (apart t').bind fun b t'' since => yes b t'' (past.on since)

theorem composed_both (past : t.Past t') (root : Nat) (children : List Nat) :
    Both (Told t) ((compose root children >>= fun _ => pure true) t'.one)
      ((compose root children >>= fun _ => pure true) t'.other) :=
  (compose_apart root children).next past fun _ t'' past => .ok t'' past

theorem Alike.first (alike : Alike n m rule rule') (room : t.Within n m) {k l : Rule Bool}
    (yes : ∀ t', t.Past t' → Both (Told t) (k t'.one) (l t'.other)) :
    Both (Told t) ((rule >>= fun b => if (!b) = true then pure false else k) t.one)
      ((rule' >>= fun b => if (!b) = true then pure false else l) t.other) := by
  apply (alike t room).bind
  rintro (_ | _) t' told
  · exact .ok t' told
  · exact yes t' told

theorem expect_both {good : Bool → Twins → Prop} {s r : State} (both : Both good (rule s) (rule' r))
    (fault : Fault) : Both (fun _ => good true) (expect rule fault s) (expect rule' fault r) := by
  apply both.bind
  rintro (_ | _) t holds
  · exact both_fail t fault
  · exact .ok t holds

theorem Alike.expect (alike : Alike n m rule rule') (past : t.Past t')
    (room : t.Within (n + 1) (m + 1)) {fault : Fault} {k l : Rule α}
    (yes : ∀ t'', t.Past t'' → Both good (k t''.one) (l t''.other)) :
    Both good ((expect rule fault >>= fun _ => k) t'.one)
      ((expect rule' fault >>= fun _ => l) t'.other) := by
  apply (expect_both (alike t' (room.past past)) fault).bind
  intro _ t'' further
  exact yes t'' (past.on further.since)

theorem Told.since {matched : Bool} {t'' : Twins} (told : Told t' matched t'')
    (since : t.Since t') : Told t matched t'' := by
  cases matched with
  | false => exact since.trans told
  | true => exact since.past told

theorem Alike.orElse {other other' : Rule Bool} (alike : Alike n m rule rule')
    (others : Alike n m other other') :
    Alike n m (rule >>= fun b => if b = true then pure true else other)
      (rule' >>= fun b => if b = true then pure true else other') := by
  intro t room
  apply (alike t room).bind
  rintro (_ | _) t' told
  · exact (others t' (room.since told)).imp fun _ _ later => later.since told
  · exact .ok t' told

theorem firstOf_alike {rules rules' : List (Rule Bool)}
    (each : List.Forall₂ (Alike n m) rules rules') :
    Alike n m (firstOf rules) (firstOf rules') := by
  induction each with
  | nil => exact fun t _ => .ok t (.refl t)
  | cons first _ ih => exact first.orElse ih

theorem Alike.gather (alike : Alike n m rule rule') (inside : t.Within n m) {i j : Nat}
    (room : t.Within i j) :
    Both (fun _ => t.Since) (gather rule i t.one) (gather rule' j t.other) := by
  induction i generalizing j t with
  | zero => exact absurd room.1 (Nat.not_lt_zero _)
  | succ i ih =>
    obtain _ | j := j
    · exact absurd room.2 (Nat.not_lt_zero _)
    apply (alike t inside).bind
    rintro (_ | _) t1 told
    · exact .ok t1 told
    apply pop_apart.next told
    intro h t2 past
    apply (ih (inside.since past.since) (room.past past)).bind
    intro hs t3 since
    exact .ok t3 (past.on since).since

theorem Alike.chain {operator operand operand' : Rule Bool}
    (operators : Alike n m operator operator) (operands : Alike n m operand operand')
    (inside : t.Within n m) {i j : Nat} (room : t.Within i j) (fault : Fault) :
    Both (fun _ => t.Since) (chain operator operand fault i t.one)
      (chain operator operand' fault j t.other) := by
  induction i generalizing j t with
  | zero => exact absurd room.1 (Nat.not_lt_zero _)
  | succ i ih =>
    obtain _ | j := j
    · exact absurd room.2 (Nat.not_lt_zero _)
    apply (operators t inside).bind
    rintro (_ | _) t1 told
    · exact .ok t1 told
    apply operands.expect told inside.succ
    intro t2 past
    apply (compose_apart 2 [3, 1]).next past
    intro _ t3 past
    have further := ih (inside.since past.since) (room.past past)
    exact further.imp fun _ _ since => (past.on since).since

end Steps

end Grammar

end TurtleGraphics
