import TurtleGraphics.Proofs.Forest.Roots
import TurtleGraphics.Proofs.Grammar.Building

/-!
The stack of a reading, by handles alone. Its entries are different roots of a sound forest, and so
are the trees that a rule has taken off it and not yet put together. A rule under way has used up a
token at least, has touched no node and no entry that was there before, and can stop with a fault at
any point: what it leaves is a stack from which the next rule goes on.
-/

namespace TurtleGraphics

/-- The next token has been looked at and pushed back, or there is none. -/
def Feed.Peeked (f : Feed) : Prop :=
  f.remaining = [] ∨ ∃ x, f.latest = .due x

/-- A token that is pushed back is ahead as it was. -/
theorem Feed.ahead_pushBack {f g : Feed} {t : Token} (step : f.next? = some (t, g)) :
    g.pushBack.ahead = f.ahead := by
  simp only [next?] at step
  split at step
  · contradiction
  · rename_i x rest ahead
    obtain ⟨rfl, rfl⟩ := Prod.mk.inj (Option.some.inj step)
    exact ahead.symm

theorem Feed.peeked_pushBack {f g : Feed} {t : Token} (step : f.next? = some (t, g)) :
    g.pushBack.Peeked := by
  simp only [next?] at step
  split at step
  · contradiction
  · obtain ⟨rfl, rfl⟩ := Prod.mk.inj (Option.some.inj step)
    exact .inr ⟨_, rfl⟩

namespace Grammar

/-- The parts of a program are put together wrongly, whatever its text. -/
def Fault.isInternal : Fault → Bool
  | emptyStack | shallowStack | badPositions _ _ | refused _ => true
  | _ => false

structure Orderly (s : State) (held : List Nat) : Prop where
  sound : s.forest.Sound
  distinct : (held ++ s.stack).Nodup
  roots : ∀ h ∈ held ++ s.stack, s.forest.IsRoot h

structure Underway (s s' : State) (held pushed : List Nat) : Prop where
  orderly : Orderly s' held
  stack : s'.stack = pushed ++ s.stack
  fresh : ∀ h ∈ held ++ pushed, s.forest.size ≤ h
  size : s.forest.size ≤ s'.forest.size
  kept : ∀ h < s.forest.size, s'.forest.entries[h]? = s.forest.entries[h]?
  tokens : ∃ used, used ≠ [] ∧ s.feed.ahead = used ++ s'.feed.ahead

structure Idle (s s' : State) : Prop where
  stack : s'.stack = s.stack
  forest : s'.forest = s.forest
  tokens : s'.feed.ahead = s.feed.ahead
  peeked : s'.feed.Peeked

inductive Ends (trees : Nat) (s : State) : EStateM.Result SyntaxError State Bool → Prop
  | matched {s' : State} {pushed : List Nat} (count : pushed.length = trees)
    (under : Underway s s' [] pushed) : Ends trees s (.ok true s')
  | passed {s' : State} (idle : Idle s s') : Ends trees s (.ok false s')
  | failed {s' : State} {fault : Fault} {held pushed : List Nat}
    (ordinary : fault.isInternal = false) (under : Underway s s' held pushed)
    (peeked : s'.feed.Peeked) : Ends trees s (.error (s'.error fault) s')

/-- The rule comes out in one of these ways if there are no more tokens than its bound. -/
def Tidy (trees bound : Nat) (rule : Rule Bool) : Prop :=
  ∀ s, Orderly s [] → s.feed.remaining.length ≤ bound → Ends trees s (rule s)

variable {s s1 s2 : State} {held held' pushed pushed' : List Nat} {trees : Nat}

theorem Orderly.released (orderly : Orderly s held) : Orderly s [] where
  sound := orderly.sound
  distinct := (List.nodup_append.mp orderly.distinct).2.1
  roots h member := orderly.roots h (by simp_all)

theorem Orderly.congr (orderly : Orderly s held) (stack : s1.stack = s.stack)
    (forest : s1.forest = s.forest) : Orderly s1 held where
  sound := forest ▸ orderly.sound
  distinct := stack ▸ orderly.distinct
  roots := by
    rw [stack, forest]
    exact orderly.roots

theorem Idle.orderly (idle : Idle s s1) (orderly : Orderly s held) : Orderly s1 held :=
  orderly.congr idle.stack idle.forest

theorem Idle.trans (first : Idle s s1) (second : Idle s1 s2) : Idle s s2 where
  stack := second.stack.trans first.stack
  forest := second.forest.trans first.forest
  tokens := second.tokens.trans first.tokens
  peeked := second.peeked

theorem Idle.remaining (idle : Idle s s1) : s1.feed.remaining = s.feed.remaining :=
  congrArg (List.map Lexeme.token) idle.tokens

theorem Underway.fewer (under : Underway s s1 held pushed) :
    s1.feed.remaining.length < s.feed.remaining.length := by
  obtain ⟨used, some_token, same⟩ := under.tokens
  have positive := List.length_pos_iff.mpr some_token
  rw [Feed.remaining, Feed.remaining, List.length_map, List.length_map, same, List.length_append]
  omega

theorem Underway.idle (under : Underway s s1 held pushed) (idle : Idle s1 s2) :
    Underway s s2 held pushed where
  orderly := idle.orderly under.orderly
  stack := idle.stack.trans under.stack
  fresh := under.fresh
  size := idle.forest ▸ under.size
  kept := by
    rw [idle.forest]
    exact under.kept
  tokens := by
    rw [idle.tokens]
    exact under.tokens

theorem Idle.underway (idle : Idle s s1) (under : Underway s1 s2 held pushed) :
    Underway s s2 held pushed where
  orderly := under.orderly
  stack := idle.stack ▸ under.stack
  fresh := idle.forest ▸ under.fresh
  size := idle.forest ▸ under.size
  kept := by
    rw [← idle.forest]
    exact under.kept
  tokens := by
    rw [← idle.tokens]
    exact under.tokens

theorem isRoot_of_kept {h : Nat} (root : s.forest.IsRoot h)
    (size : s.forest.size ≤ s1.forest.size)
    (kept : s1.forest.entries[h]? = s.forest.entries[h]?) : s1.forest.IsRoot h where
  inside := Nat.lt_of_lt_of_le root.inside size
  top := by
    have top := root.top
    unfold Forest.above at top ⊢
    rw [kept]
    exact top

/-- What was held before stays as it is while more trees are made. -/
theorem Underway.trans (first : Underway s s1 held pushed) (second : Underway s1 s2 held' pushed') :
    Underway s s2 (held' ++ held) (pushed' ++ pushed) := by
  have old : ∀ h ∈ held, h < s1.forest.size := by
    intro h member
    exact (first.orderly.roots h (by simp [member])).inside
  have stack : s2.stack = (pushed' ++ pushed) ++ s.stack := by
    rw [second.stack, first.stack, List.append_assoc]
  constructor
  · constructor
    · exact second.orderly.sound
    · have distinct := second.orderly.distinct
      have apart : ∀ h ∈ held, h ∉ held' ++ s2.stack := by
        intro h member again
        rw [second.stack, ← List.append_assoc] at again
        rcases List.mem_append.mp again with new | stacked
        · exact absurd (second.fresh h new) (Nat.not_le.mpr (old h member))
        · exact List.disjoint_of_nodup_append first.orderly.distinct member stacked
      have order : (held' ++ held ++ s2.stack).Perm (held ++ (held' ++ s2.stack)) := by
        rw [← List.append_assoc held]
        exact List.perm_append_comm.append_right _
      rw [order.nodup_iff, List.nodup_append]
      refine ⟨(List.nodup_append.mp first.orderly.distinct).1, distinct, ?_⟩
      rintro h member k other rfl
      exact apart h member other
    · intro h member
      simp only [List.mem_append] at member
      rcases member with (new | member) | stacked
      · exact second.orderly.roots h (by simp [new])
      · have root := first.orderly.roots h (by simp [member])
        exact isRoot_of_kept root second.size (second.kept h root.inside)
      · exact second.orderly.roots h (by simp [stacked])
  · exact stack
  · intro h member
    have later : h ∈ held' ++ pushed' → s.forest.size ≤ h :=
      fun new => Nat.le_trans first.size (second.fresh h new)
    simp only [List.mem_append] at member
    rcases member with (new | member) | new | member
    · exact later (by simp [new])
    · exact first.fresh h (by simp [member])
    · exact later (by simp [new])
    · exact first.fresh h (by simp [member])
  · exact Nat.le_trans first.size second.size
  · intro h small
    rw [second.kept h (Nat.lt_of_lt_of_le small first.size), first.kept h small]
  · obtain ⟨used, some_token, same⟩ := first.tokens
    obtain ⟨more, -, same'⟩ := second.tokens
    exact ⟨used ++ more, by simp [some_token], by rw [same, same', List.append_assoc]⟩

theorem Underway.perm (under : Underway s s1 held pushed) (same : held.Perm held') :
    Underway s s1 held' pushed where
  orderly := by
    constructor
    · exact under.orderly.sound
    · exact (same.append_right _).nodup_iff.mp under.orderly.distinct
    · intro h member
      exact under.orderly.roots h ((same.append_right _).mem_iff.mpr member)
  stack := under.stack
  fresh h member := under.fresh h ((same.append_right _).mem_iff.mpr member)
  size := under.size
  kept := under.kept
  tokens := under.tokens

theorem Ends.idle {r : EStateM.Result SyntaxError State Bool} (idle : Idle s s1)
    (ends : Ends trees s1 r) : Ends trees s r := by
  cases ends with
  | matched count under => exact .matched count (idle.underway under)
  | passed more => exact .passed (idle.trans more)
  | failed ordinary under peeked => exact .failed ordinary (idle.underway under) peeked

variable {rule : Rule Bool} {count bound : Nat}

theorem Ends.bind {k : Bool → Rule Bool} (ends : Ends count s (rule s))
    (no : ∀ s1, Idle s s1 → Ends trees s (k false s1))
    (yes : ∀ s1 pushed, pushed.length = count → Underway s s1 [] pushed →
      Ends trees s (k true s1)) :
    Ends trees s ((rule >>= k) s) := by
  change Ends trees s (EStateM.bind rule k s)
  unfold EStateM.bind
  generalize rule s = result at ends
  cases ends with
  | matched count under => exact yes _ _ count under
  | passed idle => exact no _ idle
  | failed ordinary under peeked => exact .failed ordinary under peeked

/-- Tries a further rule in the course of another, with what that one holds. -/
theorem Underway.bind (under : Underway s s1 held pushed) {k : Bool → Rule Bool}
    (ends : Ends count s1 (rule s1))
    (no : ∀ s2, Underway s s2 held pushed → s2.feed.Peeked → Ends trees s (k false s2))
    (yes : ∀ s2 more, more.length = count → Underway s s2 held (more ++ pushed) →
      Ends trees s (k true s2)) :
    Ends trees s ((rule >>= k) s1) := by
  change Ends trees s (EStateM.bind rule k s1)
  unfold EStateM.bind
  generalize rule s1 = result at ends
  cases ends with
  | matched count more => exact yes _ _ count (under.trans more)
  | passed idle => exact no _ (under.idle idle) idle.peeked
  | failed ordinary more peeked => exact .failed ordinary (under.trans more) peeked

/-- A rule under way is tried with fewer tokens than the whole started with. -/
theorem Tidy.ends (tidy : Tidy count bound rule) (under : Underway s s1 held pushed)
    (room : s.feed.remaining.length ≤ bound + 1) : Ends count s1 (rule s1) := by
  have fewer := under.fewer
  exact tidy s1 under.orderly.released (by omega)

theorem Tidy.mono (tidy : Tidy count bound rule) {smaller : Nat} (le : smaller ≤ bound) :
    Tidy count smaller rule :=
  fun s orderly room => tidy s orderly (Nat.le_trans room le)

theorem Tidy.first (tidy : Tidy count bound rule) (orderly : Orderly s [])
    (room : s.feed.remaining.length ≤ bound) {k : Rule Bool}
    (yes : ∀ s1 pushed, pushed.length = count → Underway s s1 [] pushed → Ends trees s (k s1)) :
    Ends trees s ((rule >>= fun b => if (!b) = true then pure false else k) s) :=
  (tidy s orderly room).bind (fun _ idle => .passed idle) yes

theorem Tidy.firstTree (tidy : Tidy 1 bound rule) (orderly : Orderly s [])
    (room : s.feed.remaining.length ≤ bound) {k : Rule Bool}
    (yes : ∀ s1 h, Underway s s1 [] [h] → Ends trees s (k s1)) :
    Ends trees s ((rule >>= fun b => if (!b) = true then pure false else k) s) := by
  apply tidy.first orderly room
  intro s1 pushed count under
  obtain ⟨h, rfl⟩ := List.length_eq_one_iff.mp count
  exact yes s1 h under

theorem Tidy.firstNone (tidy : Tidy 0 bound rule) (orderly : Orderly s [])
    (room : s.feed.remaining.length ≤ bound) {k : Rule Bool}
    (yes : ∀ s1, Underway s s1 [] [] → Ends trees s (k s1)) :
    Ends trees s ((rule >>= fun b => if (!b) = true then pure false else k) s) := by
  apply tidy.first orderly room
  intro s1 pushed count under
  obtain rfl := List.eq_nil_of_length_eq_zero count
  exact yes s1 under

theorem expect_bind (rule : Rule Bool) (fault : Fault) (k : Rule Bool) :
    (expect rule fault >>= fun _ => k) = rule >>= fun b => if b = true then k else fail fault := by
  funext s
  change EStateM.bind (EStateM.bind rule _) _ s = EStateM.bind rule _ s
  unfold EStateM.bind
  cases rule s with
  | ok b s => cases b <;> rfl
  | error e s => rfl

theorem Tidy.expect (tidy : Tidy count bound rule) (under : Underway s s1 held pushed)
    (room : s.feed.remaining.length ≤ bound + 1) {fault : Fault}
    (ordinary : fault.isInternal = false) {k : Rule Bool}
    (yes : ∀ s2 more, more.length = count → Underway s s2 held (more ++ pushed) →
      Ends trees s (k s2)) :
    Ends trees s ((expect rule fault >>= fun _ => k) s1) := by
  rw [expect_bind]
  exact under.bind (tidy.ends under room) (fun s2 under peeked => .failed ordinary under peeked) yes

theorem Tidy.expectTree (tidy : Tidy 1 bound rule) (under : Underway s s1 held pushed)
    (room : s.feed.remaining.length ≤ bound + 1) {fault : Fault}
    (ordinary : fault.isInternal = false) {k : Rule Bool}
    (yes : ∀ s2 h, Underway s s2 held (h :: pushed) → Ends trees s (k s2)) :
    Ends trees s ((Grammar.expect rule fault >>= fun _ => k) s1) := by
  apply tidy.expect under room ordinary
  intro s2 more count under
  obtain ⟨h, rfl⟩ := List.length_eq_one_iff.mp count
  exact yes s2 h under

theorem Tidy.expectNone (tidy : Tidy 0 bound rule) (under : Underway s s1 held pushed)
    (room : s.feed.remaining.length ≤ bound + 1) {fault : Fault}
    (ordinary : fault.isInternal = false) {k : Rule Bool}
    (yes : ∀ s2, Underway s s2 held pushed → Ends trees s (k s2)) :
    Ends trees s ((Grammar.expect rule fault >>= fun _ => k) s1) := by
  apply tidy.expect under room ordinary
  intro s2 more count under
  obtain rfl := List.eq_nil_of_length_eq_zero count
  exact yes s2 under

inductive Took (w : Wanted) (s : State) : EStateM.Result SyntaxError State (Option Token) → Prop
  | taken {t : Token} {line : Nat} {feed : Feed} (wanted : w.accepts t = true)
    (tokens : s.feed.ahead = ⟨t, line⟩ :: feed.ahead) : Took w s (.ok (some t) { s with feed })
  | left {feed : Feed} (same : feed.ahead = s.feed.ahead) (peeked : feed.Peeked) :
    Took w s (.ok none { s with feed })

theorem took (w : Wanted) (s : State) : Took w s (takeToken w s) := by
  rw [takeToken, get_bind]
  cases e : s.feed.next? with
  | none => exact .left rfl (.inl (Feed.next?_eq_none_iff.mp e))
  | some step =>
    obtain ⟨t, feed⟩ := step
    have tokens := Feed.ahead_of_next? e
    dsimp only
    split
    · rename_i wanted
      exact .taken wanted tokens
    · exact .left (Feed.ahead_pushBack e) (Feed.peeked_pushBack e)

/-- Tokens have been used up and nothing else has changed. -/
theorem Underway.tokensOnly (orderly : Orderly s []) {used : List Lexeme} {feed : Feed}
    (some_token : used ≠ []) (tokens : s.feed.ahead = used ++ feed.ahead) :
    Underway s { s with feed } [] [] where
  orderly := orderly.congr rfl rfl
  stack := rfl
  fresh := by simp
  size := Nat.le_refl _
  kept _ _ := rfl
  tokens := ⟨used, some_token, tokens⟩

theorem accept_cases (w : Wanted) (s : State) :
    (∃ feed, accept w s = .ok false { s with feed } ∧ feed.ahead = s.feed.ahead ∧
      feed.Peeked) ∨
    ∃ (x : Lexeme) (feed : Feed), accept w s = .ok true { s with feed } ∧
      w.accepts x.token = true ∧ s.feed.ahead = x :: feed.ahead := by
  have outcome := took w s
  change (∃ feed, EStateM.bind (takeToken w) _ s = _ ∧ _) ∨
    ∃ x feed, EStateM.bind (takeToken w) _ s = _ ∧ _
  unfold EStateM.bind
  generalize takeToken w s = result at outcome
  cases outcome with
  | taken wanted tokens => exact .inr ⟨_, _, rfl, wanted, tokens⟩
  | left same peeked => exact .inl ⟨_, rfl, same, peeked⟩

theorem accept_tidy (w : Wanted) (bound : Nat) : Tidy 0 bound (accept w) := by
  intro s orderly _
  rcases accept_cases w s with ⟨feed, done, same, peeked⟩ | ⟨x, feed, done, -, tokens⟩
  · rw [done]
    exact .passed ⟨rfl, rfl, same, peeked⟩
  · rw [done]
    exact .matched rfl (.tokensOnly orderly (List.cons_ne_nil x []) tokens)

theorem Underway.leaf (under : Underway s s1 [] []) (v : Node) :
    Underway s { s1 with
      forest := (s1.forest.leaf v).2
      stack := (s1.forest.leaf v).1 :: s1.stack } [] [(s1.forest.leaf v).1] := by
  have new : ∀ h ∈ s1.stack, h ≠ s1.forest.size := by
    intro h member
    exact Nat.ne_of_lt (under.orderly.roots h (by simp [member])).inside
  have size := under.size
  constructor
  · constructor
    · exact under.orderly.sound.leaf v
    · simp only [List.nil_append, List.nodup_cons]
      exact ⟨fun member => new _ member rfl, by simpa using under.orderly.distinct⟩
    · intro h member
      simp only [List.nil_append, List.mem_cons] at member
      rcases member with rfl | old
      · exact Forest.isRoot_leaf s1.forest v
      · exact (under.orderly.roots h (by simp [old])).leaf v
  · simp [under.stack]
  · simpa [Forest.leaf] using size
  · rw [Forest.size_leaf]
    omega
  · intro h small
    have same : (s1.forest.leaf v).2.entries[h]? = s1.forest.entries[h]? :=
      Forest.entries_leaf (by omega)
    exact same.trans (under.kept h small)
  · exact under.tokens

theorem leaf_tidy (w : Wanted) (bound : Nat) : Tidy 1 bound (leaf w) := by
  intro s orderly _
  have outcome := took w s
  change Ends 1 s (EStateM.bind (takeToken w) _ s)
  unfold EStateM.bind
  generalize takeToken w s = result at outcome
  cases outcome with
  | @taken t line feed _ tokens =>
    have taken : Underway s { s with feed } [] [] :=
      .tokensOnly orderly (List.cons_ne_nil _ []) tokens
    have one : [s.forest.size].length = 1 := rfl
    exact .matched one (taken.leaf (.ofToken t))
  | left same peeked => exact .passed ⟨rfl, rfl, same, peeked⟩

/-- The rules are tried one after another from a state in which the next token has been seen. -/
theorem firstOf_ends {rules : List (Rule Bool)} (each : ∀ r ∈ rules, Tidy count bound r)
    (orderly : Orderly s []) (room : s.feed.remaining.length ≤ bound) (idle : Idle s s1) :
    Ends count s (firstOf rules s1) := by
  induction rules generalizing s1 with
  | nil => exact .passed idle
  | cons r rules ih =>
    have first : Ends count s (r s1) :=
      (each r (by simp) s1 (idle.orderly orderly) (by rw [idle.remaining]; exact room)).idle idle
    change Ends count s (EStateM.bind r _ s1)
    unfold EStateM.bind
    generalize r s1 = result at first
    cases first with
    | matched count under => exact .matched count under
    | passed idle => exact ih (fun r member => each r (by simp [member])) idle
    | failed ordinary under peeked => exact .failed ordinary under peeked

theorem firstOf_tidy {r : Rule Bool} {rules : List (Rule Bool)}
    (each : ∀ x ∈ r :: rules, Tidy count bound x) : Tidy count bound (firstOf (r :: rules)) := by
  intro s orderly room
  apply (each r (by simp) s orderly room).bind
  · intro s1 idle
    exact firstOf_ends (fun x member => each x (by simp [member])) orderly room idle
  · intro s1 pushed count under
    exact .matched count under

theorem arePositions_iff {positions : List Nat} :
    arePositions positions = true ↔ positions.Perm (List.range' 1 positions.length) := by
  have members (n : Nat) : n ∈ List.range' 1 positions.length ↔ 1 ≤ n ∧ n ≤ positions.length := by
    rw [List.mem_range'_1]
    omega
  simp only [arePositions, Bool.and_eq_true, List.all_eq_true, decide_eq_true_eq]
  constructor
  · rintro ⟨inside, distinct⟩
    have sub : positions ⊆ List.range' 1 positions.length :=
      fun n member => (members n).mpr (inside n member)
    exact (distinct.subperm sub).perm_of_length_le (by simp)
  · intro perm
    exact ⟨fun n member => (members n).mp (perm.mem_iff.mp member),
      perm.nodup_iff.mpr List.nodup_range'⟩

/-- Positions name the entries on top, each once. -/
theorem entries_perm {positions stack : List Nat} (enough : positions.length ≤ stack.length)
    (perm : positions.Perm (List.range' 1 positions.length)) :
    (positions.map fun n => stack.getD (n - 1) 0).Perm (stack.take positions.length) := by
  have inOrder : (List.range' 1 positions.length).map (fun n => stack.getD (n - 1) 0) =
      stack.take positions.length := by
    apply List.ext_getElem
    · simp [enough]
    · intro i small _
      simp only [List.length_map, List.length_range'] at small
      have there : i < stack.length := by omega
      simp [there]
  rw [← inOrder]
  exact perm.map _

theorem compose_shallow {root : Nat} {children : List Nat}
    (shallow : s.stack.length < children.length + 1) :
    compose root children s = .error (s.error .shallowStack) s := by
  rw [compose, get_bind, if_pos shallow]
  rfl

theorem compose_badPositions {root : Nat} {children : List Nat}
    (enough : children.length + 1 ≤ s.stack.length)
    (bad : ¬ (root :: children).Perm (List.range' 1 (children.length + 1))) :
    compose root children s = .error (s.error (.badPositions root children)) s := by
  have positions : arePositions (root :: children) = false := by
    rw [← Bool.not_eq_true]
    exact fun positions => bad (arePositions_iff.mp positions)
  rw [compose, get_bind]
  simp only [if_neg (Nat.not_lt.mpr enough), positions]
  rfl

/-- Trees on top of an orderly stack are put together by positions that name each of them once. -/
theorem Orderly.compose_ok (orderly : Orderly s []) {root : Nat} {children : List Nat}
    (enough : children.length + 1 ≤ s.stack.length)
    (perm : (root :: children).Perm (List.range' 1 (children.length + 1))) :
    ∃ r cs, s.stack[root - 1]? = some r ∧ children.map (fun n => s.stack[n - 1]?) = cs.map some ∧
      (r :: cs).Perm (s.stack.take (children.length + 1)) ∧
      compose root children s = .ok () { s with
        forest := s.forest.appendAll r cs
        stack := r :: s.stack.drop (children.length + 1) } := by
  let entry := fun n => s.stack.getD (n - 1) 0
  have count : (root :: children).length ≤ s.stack.length := enough
  have top : (entry root :: children.map entry).Perm (s.stack.take (children.length + 1)) :=
    entries_perm count perm
  have there : ∀ n ∈ root :: children, s.stack[n - 1]? = some (entry n) := by
    intro n member
    obtain ⟨first, last⟩ := List.mem_range'_1.mp (perm.mem_iff.mp member)
    have inside : n - 1 < s.stack.length := by omega
    simp [entry, inside]
  have roots : ∀ h ∈ entry root :: children.map entry, s.forest.IsRoot h := by
    intro h member
    apply orderly.roots h
    simpa using List.mem_of_mem_take (top.mem_iff.mp member)
  have stacked : s.stack.Nodup := by simpa using orderly.distinct
  have distinct : (entry root :: children.map entry).Nodup :=
    top.nodup_iff.mpr (stacked.sublist (List.take_sublist _ _))
  have added := orderly.sound.addChildren_roots (roots _ (by simp))
    (fun c member => roots c (List.mem_cons_of_mem _ member)) distinct
  have positions : arePositions (root :: children) = true := arePositions_iff.mpr perm
  refine ⟨entry root, children.map entry, there root (by simp), ?_, top, ?_⟩
  · rw [List.map_map]
    exact List.map_congr_left fun n member => there n (by simp [member])
  · rw [Grammar.compose, get_bind]
    simp only [if_neg (Nat.not_lt.mpr enough), positions, Bool.not_true, Bool.false_eq_true,
      if_false]
    rw [modify_bind, get_bind, added]
    rfl

/-- Trees on top of an orderly stack can be put together by positions that name each of them
once, and by no others. -/
theorem Orderly.compose (orderly : Orderly s []) (root : Nat) (children : List Nat) :
    (s.stack.length < children.length + 1 ∧
      compose root children s = .error (s.error .shallowStack) s) ∨
    (¬ (root :: children).Perm (List.range' 1 (children.length + 1)) ∧
      compose root children s = .error (s.error (.badPositions root children)) s) ∨
    ∃ r cs, (r :: cs).Perm (s.stack.take (children.length + 1)) ∧
      compose root children s = .ok () { s with
        forest := s.forest.appendAll r cs
        stack := r :: s.stack.drop (children.length + 1) } := by
  by_cases shallow : s.stack.length < children.length + 1
  · exact .inl ⟨shallow, compose_shallow shallow⟩
  · have enough := Nat.not_lt.mp shallow
    by_cases perm : (root :: children).Perm (List.range' 1 (children.length + 1))
    · obtain ⟨r, cs, -, -, top, done⟩ := orderly.compose_ok enough perm
      exact .inr (.inr ⟨r, cs, top, done⟩)
    · exact .inr (.inl ⟨perm, compose_badPositions enough perm⟩)

theorem Orderly.composed (orderly : Orderly s []) {r : Nat} {cs below : List Nat} {top : List Nat}
    (stack : s.stack = top ++ below) (same : (r :: cs).Perm top) :
    Orderly { s with forest := s.forest.appendAll r cs, stack := r :: below } [] := by
  have distinct : ((r :: cs) ++ below).Nodup := by
    have whole := orderly.distinct
    rw [List.nil_append, stack] at whole
    exact (same.append_right below).nodup_iff.mpr whole
  have roots : ∀ h ∈ (r :: cs) ++ below, s.forest.IsRoot h := by
    intro h member
    apply orderly.roots h
    rw [List.nil_append, stack]
    exact (same.append_right below).mem_iff.mp member
  rw [List.cons_append, List.nodup_cons, List.mem_append, not_or] at distinct
  obtain ⟨⟨notChild, notBelow⟩, distinct⟩ := distinct
  obtain ⟨children, rest, apart⟩ := List.nodup_append.mp distinct
  constructor
  · have added := orderly.sound.addChildren_roots (roots r (by simp))
      (fun c member => roots c (by simp [member])) (List.nodup_cons.mpr ⟨notChild, children⟩)
    exact orderly.sound.addChildren added
  · exact List.nodup_cons.mpr ⟨notBelow, rest⟩
  · intro h member
    simp only [List.nil_append, List.mem_cons] at member
    rcases member with rfl | old
    · exact (roots h (by simp)).appendAll notChild
    · have loose : h ∉ cs := fun child => apart h child h old rfl
      exact (roots h (by simp [old])).appendAll loose

theorem Underway.compose_ok (under : Underway s s1 [] pushed) (root : Nat) (children : List Nat)
    (count : pushed.length = children.length + 1)
    (positions : arePositions (root :: children) = true) :
    ∃ s2 r, compose root children s1 = .ok () s2 ∧ Underway s s2 [] [r] := by
  have stack := under.stack
  rcases under.orderly.compose root children with ⟨shallow, -⟩ | ⟨bad, -⟩ | ⟨r, cs, top, done⟩
  · rw [stack, List.length_append] at shallow
    omega
  · exact absurd (arePositions_iff.mp positions) bad
  · rw [stack, ← count, List.take_left] at top
    rw [stack, ← count, List.drop_left] at done
    have fresh : ∀ h ∈ r :: cs, s.forest.size ≤ h :=
      fun h member => under.fresh h (by simpa using top.mem_iff.mp member)
    refine ⟨_, r, done, under.orderly.composed stack top, rfl, ?_, ?_, ?_, under.tokens⟩
    · simpa using fresh r (by simp)
    · rw [Forest.size_appendAll]
      exact under.size
    · intro h small
      have old : ∀ k ∈ r :: cs, h ≠ k := fun k member => by
        have := fresh k member
        omega
      have same : (s1.forest.appendAll r cs).entries[h]? = s1.forest.entries[h]? :=
        Forest.entries_appendAll_other (old r (by simp)) fun member => old h (by simp [member]) rfl
      exact same.trans (under.kept h small)

theorem Underway.composed (under : Underway s s1 [] pushed) {root : Nat} {children : List Nat}
    (count : pushed.length = children.length + 1)
    (positions : arePositions (root :: children) = true) :
    Ends 1 s ((compose root children >>= fun _ => pure true) s1) := by
  obtain ⟨s2, r, done, whole⟩ := under.compose_ok root children count positions
  rw [bind_of_ok done]
  exact .matched rfl whole

/-- A tree is taken off the stack and held. -/
theorem Underway.pop {h : Nat} (under : Underway s s1 held (h :: pushed)) {k : Nat → Rule Bool}
    (yes : ∀ s2, Underway s s2 (h :: held) pushed → Ends trees s (k h s2)) :
    Ends trees s ((pop >>= k) s1) := by
  have popped : Grammar.pop s1 = .ok h { s1 with stack := pushed ++ s.stack } := by
    rw [Grammar.pop, get_bind, under.stack]
    rfl
  have order : (held ++ s1.stack).Perm ((h :: held) ++ (pushed ++ s.stack)) := by
    rw [under.stack]
    exact List.perm_middle
  rw [bind_of_ok popped]
  apply yes
  constructor
  · constructor
    · exact under.orderly.sound
    · exact order.nodup_iff.mp under.orderly.distinct
    · intro k member
      exact under.orderly.roots k (order.mem_iff.mpr member)
  · rfl
  · intro k member
    exact under.fresh k (List.perm_middle.mem_iff.mpr member)
  · exact under.size
  · exact under.kept
  · exact under.tokens

/-- What is held is put on the stack. -/
theorem Underway.push {h : Nat} (under : Underway s s1 (h :: held) pushed) {k : Rule Bool}
    (yes : ∀ s2, Underway s s2 held (h :: pushed) → Ends trees s (k s2)) :
    Ends trees s ((push h >>= fun _ => k) s1) := by
  have order : (held ++ (h :: s1.stack)).Perm ((h :: held) ++ s1.stack) := List.perm_middle
  rw [Grammar.push, modify_bind]
  apply yes
  constructor
  · constructor
    · exact under.orderly.sound
    · exact order.nodup_iff.mpr under.orderly.distinct
    · intro k member
      exact under.orderly.roots k (order.mem_iff.mp member)
  · simp [under.stack]
  · intro k member
    exact under.fresh k (List.perm_middle.mem_iff.mp member)
  · exact under.size
  · exact under.kept
  · exact under.tokens

/-- Trees that are held are put together under a new node, which is held in their place. -/
theorem Underway.group (hs : List Nat) (under : Underway s s1 (hs ++ held) pushed)
    (g : Node.Group) {k : Nat → Rule Bool}
    (yes : ∀ s2 h, Underway s s2 (h :: held) pushed → Ends trees s (k h s2)) :
    Ends trees s ((group g hs >>= k) s1) := by
  have distinct := under.orderly.distinct
  rw [List.append_assoc, List.nodup_append] at distinct
  obtain ⟨children, others, apart⟩ := distinct
  have roots : ∀ h ∈ hs, s1.forest.IsRoot h :=
    fun h member => under.orderly.roots h (by simp [member])
  have made := under.orderly.sound.node_roots (.ofGroup g) roots children
  have grouped : Grammar.group g hs s1 = .ok s1.forest.size { s1 with
      forest := (s1.forest.leaf (.ofGroup g)).2.appendAll s1.forest.size hs } := by
    rw [Grammar.group, get_bind, made]
    rfl
  have size := under.size
  rw [bind_of_ok grouped]
  apply yes
  constructor
  · constructor
    · exact under.orderly.sound.node made
    · refine List.nodup_cons.mpr ⟨?_, others⟩
      intro member
      have inside := (under.orderly.roots s1.forest.size (by simp_all)).inside
      exact Nat.lt_irrefl _ inside
    · intro h member
      rcases List.mem_cons.mp member with rfl | old
      · apply (Forest.isRoot_leaf s1.forest _).appendAll
        intro member
        exact Nat.lt_irrefl _ (roots _ member).inside
      · apply ((under.orderly.roots h (by simp_all)).leaf _).appendAll
        intro member
        exact apart h member h old rfl
  · exact under.stack
  · intro h member
    simp only [List.cons_append, List.mem_cons] at member
    rcases member with rfl | old
    · exact size
    · exact under.fresh h (by simp_all)
  · rw [Forest.size_appendAll, Forest.size_leaf]
    omega
  · intro h small
    have notChild : h ∉ hs := by
      intro member
      have := under.fresh h (by simp [member])
      omega
    have same : ((s1.forest.leaf (.ofGroup g)).2.appendAll s1.forest.size hs).entries[h]? =
        (s1.forest.leaf (.ofGroup g)).2.entries[h]? :=
      Forest.entries_appendAll_other (by omega) notChild
    exact same.trans ((Forest.entries_leaf (by omega)).trans (under.kept h small))
  · exact under.tokens

theorem gather_bind (rule : Rule Bool) (n : Nat) (k : List Nat → Rule Bool) :
    (gather rule (n + 1) >>= k) = rule >>= fun b =>
      if b = true then pop >>= fun h => gather rule n >>= fun hs => k (h :: hs) else k [] := by
  funext s
  change EStateM.bind (EStateM.bind rule _) _ s = EStateM.bind rule _ s
  unfold EStateM.bind
  cases rule s with
  | ok b s =>
    cases b with
    | false => rfl
    | true =>
      change EStateM.bind (EStateM.bind pop _) _ s = EStateM.bind pop _ s
      unfold EStateM.bind
      cases pop s with
      | ok h s =>
        change EStateM.bind (EStateM.bind (gather rule n) _) _ s =
          EStateM.bind (gather rule n) _ s
        unfold EStateM.bind
        cases gather rule n s <;> rfl
      | error e s => rfl
  | error e s => rfl

theorem Tidy.gather (tidy : Tidy 1 bound rule) (room : s.feed.remaining.length ≤ bound + 1)
    {n : Nat} {k : List Nat → Rule Bool} (under : Underway s s1 held pushed)
    (yes : ∀ s2 hs, Underway s s2 (hs ++ held) pushed → Ends trees s (k hs s2)) :
    Ends trees s ((Grammar.gather rule n >>= k) s1) := by
  induction n generalizing s1 held k with
  | zero => exact yes s1 [] under
  | succ n ih =>
    rw [gather_bind]
    apply under.bind (tidy.ends under room)
    · intro s2 under _
      exact yes s2 [] under
    · intro s2 more count under
      obtain ⟨h, rfl⟩ := List.length_eq_one_iff.mp count
      apply under.pop
      intro s3 under
      apply ih under
      intro s4 hs under
      exact yes s4 (h :: hs) (under.perm List.perm_middle)

theorem chain_bind (operator operand : Rule Bool) (fault : Fault) (n : Nat) (k : Rule Bool) :
    (chain operator operand fault (n + 1) >>= fun _ => k) = operator >>= fun b =>
      if b = true then
        expect operand fault >>= fun _ => compose 2 [3, 1] >>= fun _ =>
          chain operator operand fault n >>= fun _ => k
      else k := by
  funext s
  change EStateM.bind (EStateM.bind operator _) _ s = EStateM.bind operator _ s
  unfold EStateM.bind
  cases operator s with
  | ok b s =>
    cases b with
    | false => rfl
    | true =>
      change EStateM.bind (EStateM.bind (expect operand fault) _) _ s =
        EStateM.bind (expect operand fault) _ s
      unfold EStateM.bind
      cases expect operand fault s with
      | ok _ s =>
        change EStateM.bind (EStateM.bind (compose 2 [3, 1]) _) _ s =
          EStateM.bind (compose 2 [3, 1]) _ s
        unfold EStateM.bind
        cases compose 2 [3, 1] s <;> rfl
      | error e s => rfl
  | error e s => rfl

theorem Tidy.chain {operator operand : Rule Bool} (operators : Tidy 1 bound operator)
    (operands : Tidy 1 bound operand) (room : s.feed.remaining.length ≤ bound + 1) {fault : Fault}
    (ordinary : fault.isInternal = false) {n h : Nat} {k : Rule Bool}
    (under : Underway s s1 [] [h]) (yes : ∀ s2 h, Underway s s2 [] [h] → Ends trees s (k s2)) :
    Ends trees s ((Grammar.chain operator operand fault n >>= fun _ => k) s1) := by
  induction n generalizing s1 h with
  | zero => exact yes s1 h under
  | succ n ih =>
    rw [chain_bind]
    apply under.bind (operators.ends under room)
    · intro s2 under _
      exact yes s2 h under
    · intro s2 more count under
      obtain ⟨op, rfl⟩ := List.length_eq_one_iff.mp count
      apply operands.expectTree under room ordinary
      intro s3 right under
      obtain ⟨s4, r, done, whole⟩ := under.compose_ok 2 [3, 1] rfl rfl
      rw [bind_of_ok done]
      exact ih whole

end Grammar

end TurtleGraphics
