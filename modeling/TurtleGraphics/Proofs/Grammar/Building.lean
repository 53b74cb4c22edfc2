import Mathlib.Data.List.Forall2
import TurtleGraphics.Proofs.Forest.Growth
import TurtleGraphics.Proofs.Grammar.Reading

/-!
What a rule of the grammar does beside a reader of the same phrase: it uses up the same tokens,
leaves the tree of what was read on the stack and nothing else in the forest, or finds the same
fault. The steps that rules are made of are taken over one by one.
-/

namespace TurtleGraphics.Grammar

open Phrase (Reading Reader)

structure Built (s s' : State) (made : List (Nat × Tree Node)) : Prop where
  stack : s'.stack = made.map Prod.fst ++ s.stack
  grown : s.forest.Grown s'.forest made

theorem Built.refl (s : State) : Built s s [] :=
  ⟨rfl, .refl s.forest⟩

theorem Built.trans {s s' s'' : State} {xs ys : List (Nat × Tree Node)} (left : Built s s' xs)
    (right : Built s' s'' ys) : Built s s'' (ys ++ xs) := by
  refine ⟨?_, left.grown.trans right.grown⟩
  rw [right.stack, left.stack, List.map_append, List.append_assoc]

theorem Built.feed {s s' : State} {made : List (Nat × Tree Node)} (built : Built s s' made)
    (feed : Feed) : Built s { s' with feed } made :=
  ⟨built.stack, built.grown⟩

variable {α β γ δ : Type}

theorem get_bind (k : State → Rule α) (s : State) : (get >>= k) s = k s s :=
  rfl

theorem modify_bind (f : State → State) (k : Unit → Rule α) (s : State) :
    (modify f >>= k) s = k () (f s) :=
  rfl

theorem bind_of_ok {x : Rule α} {k : α → Rule β} {s s' : State} {a : α} (h : x s = .ok a s') :
    (x >>= k) s = k a s' := by
  change EStateM.bind x k s = k a s'
  unfold EStateM.bind
  rw [h]

inductive Ran (found : α → β → State → Prop) (missed : β → State → Prop) :
    Reading α → EStateM.Result SyntaxError State β → Prop
  | matched {a : α} {b : β} {s : State} (good : found a b s) :
    Ran found missed (.matched a s.feed.remaining) (.ok b s)
  | passed {b : β} {s : State} (good : missed b s) : Ran found missed .passed (.ok b s)
  | failed {e : SyntaxError} {s : State} :
    Ran found missed (.failed e.fault s.feed.remaining) (.error e s)

theorem Ran.bind {found : α → β → State → Prop} {missed : β → State → Prop}
    {found' : γ → δ → State → Prop} {missed' : δ → State → Prop} {r : Reading α} {x : Rule β}
    {s : State} (ran : Ran found missed r (x s)) {otherwise : Reading γ}
    {next : α → List Token → Reading γ} {k : β → Rule δ}
    (no : ∀ b s', missed b s' → Ran found' missed' otherwise (k b s'))
    (yes : ∀ a b s', found a b s' → Ran found' missed' (next a s'.feed.remaining) (k b s')) :
    Ran found' missed' (r.andThen otherwise next) ((x >>= k) s) := by
  change Ran found' missed' _ (EStateM.bind x k s)
  unfold EStateM.bind
  generalize x s = result at ran
  cases ran with
  | matched good => exact yes _ _ _ good
  | passed good => exact no _ _ good
  | failed => exact .failed

theorem Ran.imp {found found' : α → β → State → Prop} {missed missed' : β → State → Prop}
    {r : Reading α} {result : EStateM.Result SyntaxError State β} (ran : Ran found missed r result)
    (yes : ∀ a b s, found a b s → found' a b s) (no : ∀ b s, missed b s → missed' b s) :
    Ran found' missed' r result := by
  cases ran with
  | matched good => exact .matched (yes _ _ _ good)
  | passed good => exact .passed (no _ _ good)
  | failed => exact .failed

theorem Ran.map {found : α → β → State → Prop} {found' : γ → β → State → Prop}
    {missed : β → State → Prop} {r : Reading α} {result : EStateM.Result SyntaxError State β}
    (ran : Ran found missed r result) {f : α → γ}
    (yes : ∀ a b s, found a b s → found' (f a) b s) : Ran found' missed (r.map f) result := by
  cases ran with
  | matched good => exact .matched (yes _ _ _ good)
  | passed good => exact .passed good
  | failed => exact .failed

/-- A rule that answers whether it matched; one that did not has changed nothing. -/
abbrev Answers (found : α → State → Prop) (s : State) :
    Reading α → EStateM.Result SyntaxError State Bool → Prop :=
  Ran (fun a b s' => b = true ∧ found a s')
    fun b s' => b = false ∧ s'.feed.remaining = s.feed.remaining ∧ Built s s' []

def Reads (tree : α → Tree Node) (rule : Rule Bool) (read : Reader α) : Prop :=
  ∀ s, Answers (fun a s' => ∃ h, Built s s' [(h, tree a)]) s (read s.feed.remaining) (rule s)

def Drops (rule : Rule Bool) (read : Reader α) : Prop :=
  ∀ s, Answers (fun _ s' => Built s s' []) s (read s.feed.remaining) (rule s)

variable {found : γ → State → Prop} {tree : α → Tree Node} {rule : Rule Bool} {read : Reader α}
  {s s' : State} {made : List (Nat × Tree Node)} {next : α → List Token → Reading γ}

theorem answers_passed (s : State) (found : γ → State → Prop) :
    Answers found s .passed ((pure false : Rule Bool) s) :=
  .passed ⟨rfl, rfl, .refl s⟩

theorem Reads.first (reads : Reads tree rule read) {k : Rule Bool}
    (yes : ∀ a s' h, Built s s' [(h, tree a)] →
      Answers found s (next a s'.feed.remaining) (k s')) :
    Answers found s ((read s.feed.remaining).andThen .passed next)
      ((rule >>= fun b => if (!b) = true then pure false else k) s) := by
  refine (reads s).bind ?_ ?_
  · rintro b s' ⟨rfl, left, built⟩
    exact .passed ⟨rfl, left, built⟩
  · rintro a b s' ⟨rfl, h, built⟩
    exact yes a s' h built

theorem Drops.first (drops : Drops rule read) {k : Rule Bool}
    (yes : ∀ a s', Built s s' [] → Answers found s (next a s'.feed.remaining) (k s')) :
    Answers found s ((read s.feed.remaining).andThen .passed next)
      ((rule >>= fun b => if (!b) = true then pure false else k) s) := by
  refine (drops s).bind ?_ ?_
  · rintro b s' ⟨rfl, left, built⟩
    exact .passed ⟨rfl, left, built⟩
  · rintro a b s' ⟨rfl, built⟩
    exact yes a s' built

theorem ran_expect {ran : α → State → Prop} {found' : γ → δ → State → Prop}
    {missed' : δ → State → Prop} {fault : Fault} {k : Rule δ} {r : Reading α}
    (answers : Answers ran s' r (rule s'))
    (yes : ∀ a s'', ran a s'' → Ran found' missed' (next a s''.feed.remaining) (k s'')) :
    Ran found' missed' (r.andThen (.failed fault s'.feed.remaining) next)
      ((expect rule fault >>= fun _ => k) s') := by
  change Ran found' missed' _ (EStateM.bind (EStateM.bind rule _) _ s')
  unfold EStateM.bind
  generalize rule s' = result at answers
  cases answers with
  | matched good =>
    obtain ⟨rfl, good⟩ := good
    exact yes _ _ good
  | @passed b s'' good =>
    obtain ⟨rfl, left, -⟩ := good
    rw [← left]
    exact .failed (e := s''.error fault)
  | failed => exact .failed

theorem Reads.expect (reads : Reads tree rule read) (built : Built s s' made) {fault : Fault}
    {k : Rule Bool}
    (yes : ∀ a s'' h, Built s s'' ((h, tree a) :: made) →
      Answers found s (next a s''.feed.remaining) (k s'')) :
    Answers found s ((read s'.feed.remaining).andThen (.failed fault s'.feed.remaining) next)
      ((expect rule fault >>= fun _ => k) s') := by
  apply ran_expect (reads s')
  rintro a s'' ⟨h, more⟩
  exact yes a s'' h (built.trans more)

theorem Drops.expect (drops : Drops rule read) (built : Built s s' made) {fault : Fault}
    {k : Rule Bool}
    (yes : ∀ a s'', Built s s'' made → Answers found s (next a s''.feed.remaining) (k s'')) :
    Answers found s ((read s'.feed.remaining).andThen (.failed fault s'.feed.remaining) next)
      ((expect rule fault >>= fun _ => k) s') := by
  apply ran_expect (drops s')
  intro a s'' more
  exact yes a s'' (built.trans more)

theorem Built.advance {feed : Feed} (s : State) : Built s { s with feed } [] :=
  (Built.refl s).feed feed

/-- What is known of a state in which only the place in the source differs. -/
def Moved (s s' : State) : Prop :=
  s' = { s with feed := s'.feed }

theorem Moved.built {s s' : State} (moved : Moved s s') : Built s s' [] := by
  rw [moved]
  exact .advance s

theorem takeToken_ran (w : Wanted) (f : Token → α) (s : State) :
    Ran (fun a token s' => ∃ t, token = some t ∧ w.accepts t = true ∧ a = f t ∧ Moved s s')
      (fun token s' => token = none ∧ s'.feed.remaining = s.feed.remaining ∧ Moved s s')
      (Phrase.take w f s.feed.remaining) (takeToken w s) := by
  cases e : s.feed.next? with
  | none =>
    have none_left := Feed.next?_eq_none_iff.mp e
    rw [none_left]
    rw [takeToken, get_bind, e]
    exact .passed ⟨rfl, none_left, rfl⟩
  | some step =>
    obtain ⟨t, feed⟩ := step
    have left := Feed.remaining_of_next? e
    have again := Feed.remaining_of_next? (Feed.next?_pushBack_of_next? e)
    rw [left, takeToken, get_bind, e]
    simp only [Phrase.take]
    cases wanted : w.accepts t with
    | true => exact .matched (s := { s with feed }) ⟨t, rfl, wanted, rfl, rfl⟩
    | false => exact .passed (s := { s with feed := feed.pushBack }) ⟨rfl, again, rfl⟩

theorem accept_drops (w : Wanted) (f : Token → α) : Drops (accept w) (Phrase.take w f) := by
  intro s
  rw [← Phrase.Reading.andThen_matched (Phrase.take w f _)]
  refine (takeToken_ran w f s).bind ?_ ?_
  · rintro token s' ⟨rfl, left, moved⟩
    exact .passed ⟨rfl, left, moved.built⟩
  · rintro a token s' ⟨t, rfl, -, rfl, moved⟩
    exact .matched ⟨rfl, moved.built⟩

theorem leaf_reads {w : Wanted} {f : Token → α}
    (same : ∀ t, w.accepts t = true → tree (f t) = Phrase.atom t) :
    Reads tree (leaf w) (Phrase.take w f) := by
  intro s
  rw [← Phrase.Reading.andThen_matched (Phrase.take w f _)]
  refine (takeToken_ran w f s).bind ?_ ?_
  · rintro token s' ⟨rfl, left, moved⟩
    exact .passed ⟨rfl, left, moved.built⟩
  · rintro a token s' ⟨t, rfl, wanted, rfl, moved⟩
    let next : State :=
      ⟨s'.feed, (s'.forest.leaf (.ofToken t)).2, (s'.forest.leaf (.ofToken t)).1 :: s'.stack⟩
    have built : Built s' next [((s'.forest.leaf (.ofToken t)).1, tree (f t))] := by
      refine ⟨rfl, ?_⟩
      rw [same t wanted]
      exact Forest.grown_leaf s'.forest (.ofToken t)
    exact .matched (s := next) ⟨rfl, _, moved.built.trans built⟩

theorem Ran.after {r : Reading α} {result : EStateM.Result SyntaxError State Bool}
    (ran : Answers (fun a t => ∃ h, Built s' t [(h, tree a)]) s' r result)
    (left : s'.feed.remaining = s.feed.remaining) (built : Built s s' []) :
    Answers (fun a t => ∃ h, Built s t [(h, tree a)]) s r result := by
  refine ran.imp ?_ ?_
  · rintro a b t ⟨rfl, h, more⟩
    exact ⟨rfl, h, built.trans more⟩
  · rintro b t ⟨rfl, same, more⟩
    exact ⟨rfl, same.trans left, built.trans more⟩

theorem Reads.later (reads : Reads tree rule read)
    (left : s'.feed.remaining = s.feed.remaining) (built : Built s s' []) :
    Answers (fun a t => ∃ h, Built s t [(h, tree a)]) s (read s.feed.remaining) (rule s') := by
  have ran := (reads s').after left built
  rw [left] at ran
  exact ran

theorem firstOf_reads {rules : List (Rule Bool)} {readers : List (Reader α)}
    (each : List.Forall₂ (Reads tree) rules readers) :
    Reads tree (firstOf rules) (Phrase.either readers) := by
  induction each with
  | nil =>
    intro s
    exact answers_passed s _
  | cons first _ ih =>
    intro s
    rw [Phrase.either_cons]
    refine (first s).bind ?_ ?_
    · rintro b s' ⟨rfl, left, built⟩
      exact ih.later left built
    · rintro a b s' ⟨rfl, h, built⟩
      exact .matched ⟨rfl, h, built⟩

theorem pop_ok {x : Nat × Tree Node} (built : Built s s' [x]) :
    pop s' = .ok x.1 { s' with stack := s.stack } := by
  rw [pop, get_bind, built.stack]
  rfl

theorem ran_pop {found' : γ → δ → State → Prop} {missed' : δ → State → Prop} {r : Reading γ}
    {x : Nat × Tree Node} {k : Nat → Rule δ} (built : Built s s' [x])
    (ran : Ran found' missed' r (k x.1 { s' with stack := s.stack })) :
    Ran found' missed' r ((pop >>= k) s') := by
  rw [bind_of_ok (pop_ok built)]
  exact ran

theorem gather_ran (reads : Reads tree rule read) (n : Nat) (s : State) :
    Ran (fun as hs s' => s'.stack = s.stack ∧ ∃ made : List (Nat × Tree Node),
        hs = made.map Prod.fst ∧ as.map tree = made.map Prod.snd ∧
          s.forest.Grown s'.forest made)
      (fun _ _ => False) (Phrase.many read n s.feed.remaining) (gather rule n s) := by
  induction n generalizing s with
  | zero => exact .matched ⟨rfl, [], rfl, rfl, .refl _⟩
  | succ n ih =>
    refine (reads s).bind ?_ ?_
    · rintro b s' ⟨rfl, left, built⟩
      rw [← left]
      refine .matched ⟨built.stack, [], rfl, rfl, built.grown⟩
    · rintro a b s' ⟨rfl, h, built⟩
      apply ran_pop built
      apply (ih { s' with stack := s.stack }).bind (fun _ _ => False.elim)
      rintro as hs t ⟨stack, rest, rfl, trees, grown⟩
      have all := (built.grown.trans grown).perm List.perm_append_comm
      exact .matched ⟨stack, _, rfl, by simp [trees], all⟩

/-- Puts the trees on top of the stack together: the one at the first position takes in the others
in the order of their positions. -/
theorem Built.compose_ok {root : Nat} {children : List Nat} {r : Nat} {v : Node}
    {ts : List (Tree Node)} {cs : List (Nat × Tree Node)} (built : Built s s' made)
    (positions : arePositions (root :: children) = true)
    (count : made.length = children.length + 1)
    (chosen : (root :: children).map (fun n => made[n - 1]?) =
      ((r, Tree.node v ts) :: cs).map some)
    (all : made.Perm ((r, .node v ts) :: cs)) :
    ∃ s'', compose root children s' = .ok () s'' ∧ s''.feed = s'.feed ∧
      Built s s'' [(r, .node v (ts ++ cs.map Prod.snd))] := by
  have entry (n : Nat) (x : Nat × Tree Node) (at_n : made[n - 1]? = some x) :
      s'.stack.getD (n - 1) 0 = x.1 := by
    have small := (List.getElem?_eq_some_iff.mp at_n).1
    rw [built.stack, List.getD_eq_getElem?_getD, List.getElem?_append_left (by simpa using small)]
    simp [at_n]
  rw [List.map_cons, List.map_cons, List.cons.injEq] at chosen
  have others : children.map (fun n => s'.stack.getD (n - 1) 0) = cs.map Prod.fst := by
    have each := chosen.2
    clear positions count all chosen
    induction children generalizing cs with
    | nil => cases cs <;> simp_all
    | cons n children ih =>
      cases cs with
      | nil => simp at each
      | cons c cs =>
        simp only [List.map_cons, List.cons.injEq] at each
        simp only [List.map_cons]
        rw [entry n c each.1, ih each.2]
  have enough : ¬ s'.stack.length < children.length + 1 := by
    rw [built.stack, List.length_append, List.length_map]
    omega
  have below : s'.stack.drop (children.length + 1) = s.stack := by
    rw [built.stack, ← count, ← List.length_map Prod.fst, List.drop_left]
  have whole : made.Perm ((r, .node v ts) :: (cs ++ [])) := by simpa using all
  obtain ⟨forest, done, grown⟩ := (built.grown.perm whole).addChildren
  refine ⟨⟨s'.feed, forest, r :: s.stack⟩, ?_, rfl, rfl, grown⟩
  rw [Grammar.compose, get_bind]
  simp only [if_neg enough, positions, entry root _ chosen.1, others, below]
  simp only [Bool.not_true, Bool.false_eq_true, if_false]
  rw [modify_bind, get_bind, done]
  rfl

theorem Built.composed {root : Nat} {children : List Nat} {r : Nat} {v : Node}
    {ts : List (Tree Node)} {cs : List (Nat × Tree Node)} {tree : γ → Tree Node} {c : γ}
    (built : Built s s' made) (positions : arePositions (root :: children) = true)
    (count : made.length = children.length + 1)
    (chosen : (root :: children).map (fun n => made[n - 1]?) =
      ((r, Tree.node v ts) :: cs).map some)
    (all : made.Perm ((r, .node v ts) :: cs)) (same : tree c = .node v (ts ++ cs.map Prod.snd)) :
    Answers (fun c t => ∃ h, Built s t [(h, tree c)]) s (.matched c s'.feed.remaining)
      ((compose root children >>= fun _ => pure true) s') := by
  obtain ⟨s'', done, feed, whole⟩ := built.compose_ok positions count chosen all
  rw [← same] at whole
  rw [← feed]
  rw [bind_of_ok done]
  exact .matched ⟨rfl, r, whole⟩

theorem ran_group {found' : γ → δ → State → Prop} {missed' : δ → State → Prop} {r : Reader γ}
    {f : Forest Node} {g : Node.Group} {k : Nat → Rule δ} {cs others : List (Nat × Tree Node)}
    (grown : f.Grown s.forest (cs ++ others))
    (next : ∀ s' h, s'.stack = s.stack →
      f.Grown s'.forest ((h, .node (.ofGroup g) (cs.map Prod.snd)) :: others) →
      Ran found' missed' (r s'.feed.remaining) (k h s')) :
    Ran found' missed' (r s.feed.remaining) ((group g (cs.map Prod.fst) >>= k) s) := by
  obtain ⟨h, forest, done, made⟩ := grown.node (.ofGroup g)
  have grouped : group g (cs.map Prod.fst) s = .ok h { s with forest } := by
    rw [group, get_bind, done]
    rfl
  rw [bind_of_ok grouped]
  exact next { s with forest } h rfl made

/-- Groups trees that are not on the stack and puts the group there. -/
theorem ran_grouped {found' : γ → δ → State → Prop} {missed' : δ → State → Prop} {r : Reader γ}
    {g : Node.Group} {k : Rule δ} (stack : s'.stack = s.stack)
    (grown : s.forest.Grown s'.forest made)
    (next : ∀ s'' h, Built s s'' [(h, .node (.ofGroup g) (made.map Prod.snd))] →
      Ran found' missed' (r s''.feed.remaining) (k s'')) :
    Ran found' missed' (r s'.feed.remaining)
      ((group g (made.map Prod.fst) >>= fun h => push h >>= fun _ => k) s') := by
  have whole : s.forest.Grown s'.forest (made ++ []) := by simpa using grown
  refine ran_group whole fun s'' h same grouped => ?_
  refine next { s'' with stack := h :: s''.stack } h ⟨?_, grouped⟩
  simp [same, stack]

end TurtleGraphics.Grammar
