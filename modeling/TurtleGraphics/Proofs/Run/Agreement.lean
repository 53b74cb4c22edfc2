import Mathlib.Data.List.Forall2
import TurtleGraphics.Proofs.Results
import TurtleGraphics.Proofs.Run.Walk

/-!
What is read off a forest is what is found on the trees that are there. So where there is a tree at
a handle, no node is lacking in what the handle comes to.
-/

namespace TurtleGraphics

namespace Forest

def At (f : Forest Node) (h : Nat) (t : Tree Node) : Prop :=
  f.tree h = .ok t

end Forest

inductive Agrees {α β : Type} (R : α → β → Prop) : Except Fault α → Except RuntimeError β → Prop
  | ok {a : α} {b : β} (related : R a b) : Agrees R (.ok a) (.ok b)
  | error (e : RuntimeError) : Agrees R (.error (.failure e)) (.error e)

namespace Agrees

variable {α β γ δ : Type} {R : α → β → Prop} {S : γ → δ → Prop}

theorem bind {r : Except Fault α} {s : Except RuntimeError β} {g : α → Except Fault γ}
    {k : β → Except RuntimeError δ} (first : Agrees R r s)
    (next : ∀ a b, R a b → Agrees S (g a) (k b)) : Agrees S (r >>= g) (s >>= k) := by
  cases first with
  | ok related => exact next _ _ related
  | error e => exact .error e

theorem map {r : Except Fault α} {s : Except RuntimeError β} {g : α → γ} {k : β → δ}
    (first : Agrees R r s) (next : ∀ a b, R a b → S (g a) (k b)) :
    Agrees S (r.map g) (s.map k) := by
  cases first with
  | ok related => exact .ok (next _ _ related)
  | error e => exact .error e

theorem counted {text : String} (reason : Nat → Malformation) {i j : Nat} (same : i = j) :
    Agrees R (.error (.failure (.malformedNode text (reason i))))
      (.error (.malformedNode text (reason j))) := by
  rw [same]
  exact .error _

/-- The first value is found before the second one. -/
theorem both {ρ σ : Type} {r r' : Except Fault α} {s s' : Except RuntimeError α}
    {P : ρ → σ → Prop} {g : α → α → Except Fault ρ} {k : α → α → Except RuntimeError σ}
    (first : Agrees (· = ·) r s) (second : Agrees (· = ·) r' s')
    (alike : ∀ x y, Agrees P (g x y) (k x y)) :
    Agrees P (do g (← r) (← r')) (do k (← s) (← s')) := by
  refine first.bind fun x _ same => ?_
  cases same
  refine second.bind fun y _ same => ?_
  cases same
  exact alike x y

theorem lift (r : Except RuntimeError α) : Agrees (· = ·) (Fault.lift r) r := by
  cases r with
  | ok a => exact .ok rfl
  | error e => exact .error e

end Agrees

namespace Forest

variable {f : Forest Node} {v : View}

theorem mapM_eq_ok_iff {α : Type} {g : Nat → Except Error α} {hs : List Nat} {ts : List α} :
    hs.mapM g = .ok ts ↔ List.Forall₂ (fun h t => g h = .ok t) hs ts := by
  constructor
  · intro all
    induction hs generalizing ts with
    | nil =>
      cases all
      exact .nil
    | cons h hs ih =>
      rw [List.mapM_cons] at all
      obtain ⟨t, first, rest⟩ := ok_of_bind all
      obtain ⟨others, found, done⟩ := ok_of_bind rest
      cases done
      exact .cons first (ih found)
  · intro each
    induction each with
    | nil => rfl
    | cons first _ ih =>
      rw [List.mapM_cons, first, ih]
      rfl

theorem treeWithin_succ {depth h : Nat} {n : Node} {ts : List (Tree Node)}
    (there : f.treeWithin (depth + 1) h = .ok (.node n ts)) :
    ∃ parent hs, f.entry h = .ok ⟨n, hs, parent⟩ ∧
      List.Forall₂ (fun c u => f.treeWithin depth c = .ok u) hs ts := by
  obtain ⟨⟨_, hs, parent⟩, entry, rest⟩ := ok_of_bind there
  obtain ⟨us, below, done⟩ := ok_of_bind rest
  cases done
  exact ⟨parent, hs, entry, mapM_eq_ok_iff.mp below⟩

theorem treeWithin_mono {depth h : Nat} {t : Tree Node} (there : f.treeWithin depth h = .ok t) :
    f.treeWithin (depth + 1) h = .ok t := by
  induction depth generalizing h t with
  | zero => cases there
  | succ depth ih =>
    obtain ⟨n, ts⟩ := t
    obtain ⟨parent, hs, entry, below⟩ := treeWithin_succ there
    have deeper : hs.mapM (f.treeWithin (depth + 1)) = .ok ts :=
      mapM_eq_ok_iff.mpr (below.imp fun _ _ => ih)
    simp only [treeWithin, entry, Bind.bind, Except.bind] at deeper ⊢
    rw [deeper]
    rfl

/-- The node at a handle is the top of the tree there, and its children are the tops of the trees
below. -/
theorem At.see {h : Nat} {n : Node} {ts : List (Tree Node)} (there : f.At h (.node n ts)) :
    ∃ hs, f.see h = .ok (n, hs) ∧ List.Forall₂ f.At hs ts := by
  obtain ⟨parent, hs, entry, below⟩ := treeWithin_succ there
  exact ⟨hs, by rw [Forest.see, entry], below.imp fun _ _ => treeWithin_mono⟩

theorem At.seen {h : Nat} {t : Tree Node} (there : f.At h t) :
    ∃ hs, f.see h = .ok (t.value, hs) ∧ List.Forall₂ f.At hs t.children := by
  obtain ⟨n, ts⟩ := t
  exact there.see

theorem onlyBelow_agrees {h : Nat} {n : Node} {ts : List (Tree Node)}
    (there : f.At h (.node n ts)) : Agrees f.At (f.onlyBelow h) (onlyChild n ts) := by
  obtain ⟨hs, seen, below⟩ := there.see
  have count := below.length_eq
  unfold onlyBelow
  rw [seen]
  cases below with
  | nil => exact .error _
  | cons first below =>
    cases below with
    | nil => exact .ok first
    | cons => exact .counted (.childCount 1) count

theorem twoBelow_agrees {h : Nat} {n : Node} {ts : List (Tree Node)}
    (there : f.At h (.node n ts)) :
    Agrees (fun a b => f.At a.1 b.1 ∧ f.At a.2 b.2) (f.twoBelow h) (twoChildren n ts) := by
  obtain ⟨hs, seen, below⟩ := there.see
  have count := below.length_eq
  unfold twoBelow
  rw [seen]
  cases below with
  | nil => exact .error _
  | cons first below =>
    cases below with
    | nil => exact .error _
    | cons second below =>
      cases below with
      | nil => exact .ok ⟨first, second⟩
      | cons => exact .counted (.childCount 2) count

theorem threeBelow_agrees {h : Nat} {n : Node} {ts : List (Tree Node)}
    (there : f.At h (.node n ts)) :
    Agrees (fun a b => f.At a.1 b.1 ∧ f.At a.2.1 b.2.1 ∧ f.At a.2.2 b.2.2) (f.threeBelow h)
      (threeChildren n ts) := by
  obtain ⟨hs, seen, below⟩ := there.see
  have count := below.length_eq
  unfold threeBelow
  rw [seen]
  cases below with
  | nil => exact .error _
  | cons first below =>
    cases below with
    | nil => exact .error _
    | cons second below =>
      cases below with
      | nil => exact .error _
      | cons third below =>
        cases below with
        | nil => exact .ok ⟨first, second, third⟩
        | cons => exact .counted (.childCount 3) count

section Evaluate

variable {depth h : Nat} {n : Node}

theorem evaluate_leaf (v : View) (seen : f.see h = .ok (n, [])) :
    Agrees (· = ·) (f.evaluateWithin v (depth + 1) h) (v.evaluate (.node n [])) := by
  obtain ⟨kind, token⟩ := n
  unfold evaluateWithin View.evaluate
  rw [seen]
  dsimp only [Bind.bind, Except.bind]
  cases kind with
  | number => exact .lift (literalValue token.text)
  | name =>
    dsimp only
    cases v.fetch (Node.text ⟨.name, token⟩) with
    | some x => exact .ok rfl
    | none => exact .error _
  | getX | getY => exact .ok rfl
  | _ => exact .error _

theorem evaluate_sign {v : View} {a : Nat} {t : Tree Node} (seen : f.see h = .ok (n, [a]))
    (one : Agrees (· = ·) (f.evaluateWithin v depth a) (v.evaluate t)) :
    Agrees (· = ·) (f.evaluateWithin v (depth + 1) h) (v.evaluate (.node n [t])) := by
  obtain ⟨kind, token⟩ := n
  unfold evaluateWithin View.evaluate
  rw [seen]
  dsimp only [Bind.bind, Except.bind]
  cases kind with
  | add => exact one
  | sub => exact one.map fun _ _ same => congrArg _ same
  | _ => exact .error _

theorem evaluate_binary {v : View} {a b : Nat} {t u : Tree Node}
    (seen : f.see h = .ok (n, [a, b]))
    (one : Agrees (· = ·) (f.evaluateWithin v depth a) (v.evaluate t))
    (two : Agrees (· = ·) (f.evaluateWithin v depth b) (v.evaluate u)) :
    Agrees (· = ·) (f.evaluateWithin v (depth + 1) h) (v.evaluate (.node n [t, u])) := by
  obtain ⟨kind, token⟩ := n
  unfold evaluateWithin View.evaluate
  rw [seen]
  dsimp only [Bind.bind, Except.bind]
  cases kind with
  | add | sub | mul => exact one.both two fun _ _ => .ok rfl
  | div =>
    refine one.both two fun x y => ?_
    by_cases zero : (y == 0) = true
    · rw [if_pos zero, if_pos zero]
      exact .error _
    · rw [if_neg zero, if_neg zero]
      exact .ok rfl
  | _ => exact .error _

theorem evaluate_crowd (v : View) {a b c : Nat} {hs : List Nat} {t u w : Tree Node}
    {ts : List (Tree Node)} (seen : f.see h = .ok (n, a :: b :: c :: hs))
    (count : hs.length = ts.length) :
    Agrees (· = ·) (f.evaluateWithin v (depth + 1) h)
      (v.evaluate (.node n (t :: u :: w :: ts))) := by
  have count : (a :: b :: c :: hs).length = (t :: u :: w :: ts).length := by simp [count]
  obtain ⟨kind, token⟩ := n
  unfold evaluateWithin View.evaluate
  rw [seen]
  dsimp only [Bind.bind, Except.bind]
  cases kind with
  | add | sub | mul | div => exact .counted .operandCount count
  | _ => exact .error _

theorem evaluateWithin_agrees (v : View) {t : Tree Node} (there : f.treeWithin depth h = .ok t) :
    Agrees (· = ·) (f.evaluateWithin v depth h) (v.evaluate t) := by
  induction depth generalizing h t with
  | zero => cases there
  | succ depth ih =>
    obtain ⟨n, ts⟩ := t
    obtain ⟨parent, hs, entry, below⟩ := treeWithin_succ there
    have seen : f.see h = .ok (n, hs) := by rw [Forest.see, entry]
    -- the children of the node and of the tree are as many, so both take the same branch
    cases below with
    | nil => exact evaluate_leaf v seen
    | cons first below =>
      cases below with
      | nil => exact evaluate_sign seen (ih first)
      | cons second below =>
        cases below with
        | nil => exact evaluate_binary seen (ih first) (ih second)
        | cons _ below => exact evaluate_crowd v seen below.length_eq

end Evaluate

theorem evaluate_agrees (v : View) {h : Nat} {t : Tree Node} (there : f.At h t) :
    Agrees (· = ·) (f.evaluate v h) (v.evaluate t) :=
  evaluateWithin_agrees v there

theorem holds_agrees (v : View) {h : Nat} {t : Tree Node} (there : f.At h t) :
    Agrees (· = ·) (f.holds v h) (v.holds t) := by
  obtain ⟨n, ts⟩ := t
  obtain ⟨hs, seen, -⟩ := there.see
  unfold holds View.holds
  rw [seen]
  dsimp only [Bind.bind, Except.bind]
  cases View.comparison? n.kind with
  | none => exact .error _
  | some compare =>
    refine (twoBelow_agrees there).bind fun _ _ ⟨left, right⟩ => ?_
    exact (evaluate_agrees v left).both (evaluate_agrees v right) fun _ _ => .ok rfl

theorem operand_agrees (v : View) {h : Nat} {n : Node} {ts : List (Tree Node)}
    (there : f.At h (.node n ts)) : Agrees (· = ·) (f.operand v h) (v.operand n ts) :=
  (onlyBelow_agrees there).bind fun _ _ below => evaluate_agrees v below

theorem channel_agrees (v : View) {h : Nat} {t : Tree Node} (there : f.At h t) :
    Agrees (· = ·) (f.channel v h) (v.channel t) := by
  refine (evaluate_agrees v there).bind fun x _ same => ?_
  cases same
  exact .lift _

/-- Both are drawing commands with the same order or error, or neither is a drawing command. -/
theorem order?_agrees (v : View) {h : Nat} {n : Node} {ts : List (Tree Node)}
    (there : f.At h (.node n ts)) :
    Option.Rel (Agrees (· = ·)) (f.order? v n h) (v.order? n ts) := by
  have moved (o : Float → Order) :
      Option.Rel (Agrees (· = ·)) (some ((f.operand v h).map o)) (some ((v.operand n ts).map o)) :=
    .some ((operand_agrees v there).map fun _ _ same => congrArg o same)
  obtain ⟨kind, token⟩ := n
  unfold Forest.order? View.order?
  cases kind with
  | forward => exact moved .forward
  | left => exact moved .turnLeft
  | right => exact moved .turnRight
  | face => exact moved .face
  | home | penUp | penDown | namedColor => exact .some (.ok rfl)
  | jump =>
    refine .some ((twoBelow_agrees there).bind fun _ _ ⟨first, second⟩ => ?_)
    exact (evaluate_agrees v first).both (evaluate_agrees v second) fun _ _ => .ok rfl
  | color =>
    refine .some ((threeBelow_agrees there).bind fun _ _ ⟨first, second, third⟩ => ?_)
    refine (channel_agrees v first).bind fun red _ same => ?_
    cases same
    exact (channel_agrees v second).both (channel_agrees v third) fun _ _ => .ok rfl
  | _ => exact .none

/-- The procedures are kept under the same names, one by its handle and one as the tree there. -/
def Knows (f : Forest Node) (handles : Bindings Nat) (trees : Bindings (Tree Node)) : Prop :=
  ∀ name, Option.Rel f.At (handles.get? name) (trees.get? name)

theorem knows_empty : f.Knows .empty .empty :=
  fun _ => .none

theorem Knows.put {handles : Bindings Nat} {trees : Bindings (Tree Node)}
    (known : f.Knows handles trees) (name : String) {d : Nat} {t : Tree Node} (there : f.At d t) :
    f.Knows (handles.put name d) (trees.put name t) := by
  intro other
  rw [Bindings.get?_put, Bindings.get?_put]
  split
  · exact .some there
  · exact known other

theorem defineAll_agrees {handles : Bindings Nat} {trees : Bindings (Tree Node)} {ds : List Nat}
    {ts : List (Tree Node)} (known : f.Knows handles trees) (there : List.Forall₂ f.At ds ts) :
    Agrees f.Knows (f.defineAll handles ds) (Machine.defineAll trees ts) := by
  induction there generalizing handles trees with
  | nil => exact .ok known
  | @cons d t ds ts first rest ih =>
    obtain ⟨n, us⟩ := t
    obtain ⟨hs, seen, -⟩ := first.see
    unfold Forest.defineAll Machine.defineAll
    rw [seen]
    dsimp only [Bind.bind, Except.bind]
    split
    · exact .error _
    · refine (twoBelow_agrees first).bind fun _ b ⟨header, _⟩ => ?_
      obtain ⟨⟨head, heads⟩, body⟩ := b
      refine (twoBelow_agrees header).bind fun _ b ⟨name, _⟩ => ?_
      obtain ⟨⟨spelling, below⟩, parameters⟩ := b
      obtain ⟨_, spelt, -⟩ := name.see
      rw [spelt]
      exact ih (known.put _ first)

theorem bindAll_agrees (v : View) {ps as : List Nat} {qs bs : List (Tree Node)}
    (formals : List.Forall₂ f.At ps qs) (actuals : List.Forall₂ f.At as bs)
    (frame : Bindings Float) :
    Agrees (· = ·) (f.bindAll v frame ps as) (Machine.bind v frame qs bs) := by
  induction formals generalizing as bs frame with
  | nil => exact .ok rfl
  | @cons p q ps qs formal _ ih =>
    cases actuals with
    | nil => exact .ok rfl
    | cons actual actuals =>
      refine (evaluate_agrees v actual).bind fun x _ same => ?_
      cases same
      obtain ⟨n, us⟩ := q
      obtain ⟨_, seen, -⟩ := formal.see
      rw [seen]
      exact ih actuals _

theorem prepare_agrees {handles : Bindings Nat} {trees : Bindings (Tree Node)}
    (known : f.Knows handles trees) (v : View) {h : Nat} {n : Node} {ts : List (Tree Node)}
    (there : f.At h (.node n ts)) :
    Agrees (fun a b => a.1 = b.1 ∧ f.At a.2 b.2) (f.prepare handles v h)
      (Machine.prepare trees v n ts) := by
  refine (twoBelow_agrees there).bind fun a b ⟨name, arguments⟩ => ?_
  obtain ⟨_, spelt, -⟩ := name.seen
  obtain ⟨as, sawActuals, actuals⟩ := arguments.seen
  dsimp only
  rw [spelt]
  dsimp only [Bind.bind, Except.bind]
  have found := known b.1.value.text
  generalize handles.get? b.1.value.text = d, trees.get? b.1.value.text = t at found ⊢
  cases found with
  | none => exact .error _
  | @some d t definition =>
    obtain ⟨e, us⟩ := t
    refine (twoBelow_agrees definition).bind fun c d ⟨header, body⟩ => ?_
    obtain ⟨⟨head, heads⟩, whole⟩ := d
    refine (twoBelow_agrees header).bind fun c' d' ⟨_, parameters⟩ => ?_
    obtain ⟨ps, sawFormals, formals⟩ := parameters.seen
    rw [sawFormals, sawActuals]
    dsimp only [Bind.bind, Except.bind]
    rw [formals.length_eq, actuals.length_eq]
    split
    · exact .error _
    · refine (bindAll_agrees v formals actuals .empty).bind fun frame _ same => ?_
      exact .ok ⟨same, body⟩

inductive Meets (f : Forest Node) : Walk.Task → Task → Prop
  | visit {h : Nat} {t : Tree Node} (there : f.At h t) : Meets f (.visit h) (.visit t)
  | times (count : Nat) {h : Nat} {t : Tree Node} (there : f.At h t) :
    Meets f (.times count h) (.times count t)
  | loop {h k : Nat} {t u : Tree Node} (condition : f.At h t) (body : f.At k u) :
    Meets f (.loop h k) (.loop t u)
  | leave : Meets f .leave .leave

inductive Does (f : Forest Node) : Walk.Deed → Deed → Prop
  | order (o : Order) : Does f (.order o) (.order o)
  | store (name : String) (x : Float) : Does f (.store name x) (.store name x)
  | push {tasks : List Walk.Task} {others : List Task}
    (same : List.Forall₂ f.Meets tasks others) : Does f (.push tasks) (.push others)
  | define {handles : Bindings Nat} {trees : Bindings (Tree Node)} {h : Nat} {t : Tree Node}
    (known : f.Knows handles trees) (there : f.At h t) :
    Does f (.define handles h) (.define trees t)
  | call (frame : Bindings Float) {h : Nat} {t : Tree Node} (there : f.At h t) :
    Does f (.call frame h) (.call frame t)

theorem meets_visits {hs : List Nat} {ts : List (Tree Node)} (there : List.Forall₂ f.At hs ts) :
    List.Forall₂ f.Meets (hs.map .visit) (ts.map .visit) := by
  induction there with
  | nil => exact .nil
  | cons first _ ih => exact .cons (.visit first) ih

theorem round_agrees (v : View) {h k : Nat} {t u : Tree Node} (condition : f.At h t)
    (body : f.At k u) : Agrees f.Does (f.round v h k) (Machine.round v t u) := by
  refine (holds_agrees v condition).bind fun b _ same => ?_
  cases same
  refine .ok (.push ?_)
  cases b with
  | true => exact .cons (.visit body) (.cons (.loop condition body) .nil)
  | false => exact .nil

/-- A drawing command gives its order, and what is no command gives the same error. -/
theorem drawing_agrees (v : View) {h : Nat} {n : Node} {ts : List (Tree Node)}
    (there : f.At h (.node n ts)) :
    Agrees f.Does
      ((f.order? v n h).elim (.error (.failure (.unknownCommand n.text))) (·.map .order))
      ((v.order? n ts).elim (.error (.unknownCommand n.text)) (·.map .order)) := by
  have same := order?_agrees v there
  generalize f.order? v n h = r, v.order? n ts = s at same ⊢
  cases same with
  | none => exact .error _
  | some agree =>
    refine agree.map fun o _ same => ?_
    cases same
    exact .order o

theorem deed_agrees {handles : Bindings Nat} {trees : Bindings (Tree Node)}
    (known : f.Knows handles trees) (v : View) {h : Nat} {t : Tree Node} (there : f.At h t) :
    Agrees f.Does (f.deed handles v h) (Machine.deed trees v t) := by
  obtain ⟨⟨kind, token⟩, ts⟩ := t
  obtain ⟨hs, seen, below⟩ := there.see
  have count := below.length_eq
  have two := twoBelow_agrees there
  have drawing := drawing_agrees v there
  unfold Forest.deed Machine.deed
  rw [seen]
  dsimp only [Bind.bind, Except.bind]
  cases kind with
  | program =>
    refine two.bind fun a b ⟨block, list⟩ => ?_
    obtain ⟨_, saw, definitions⟩ := list.seen
    rw [saw]
    exact (defineAll_agrees known definitions).bind fun _ _ known => .ok (.define known block)
  | block => exact .ok (.push (meets_visits below))
  | assign =>
    refine two.bind fun a b ⟨target, expression⟩ => ?_
    obtain ⟨_, saw, -⟩ := target.seen
    rw [saw]
    dsimp only [Bind.bind, Except.bind]
    split
    · exact .error _
    · refine (evaluate_agrees v expression).bind fun x _ same => ?_
      cases same
      exact .ok (.store _ x)
  | times =>
    refine two.bind fun a b ⟨number, body⟩ => ?_
    refine (evaluate_agrees v number).bind fun x _ same => ?_
    cases same
    exact .ok (.push (.cons (.times _ body) .nil))
  | loop =>
    refine two.bind fun a b ⟨condition, body⟩ => ?_
    exact .ok (.push (.cons (.loop condition body) .nil))
  | branch =>
    cases below with
    | nil => exact .error _
    | cons condition below =>
      have chosen := holds_agrees v condition
      cases below with
      | nil => exact .error _
      | cons body below =>
        cases below with
        | nil =>
          refine chosen.bind fun b _ same => ?_
          cases same
          cases b with
          | true => exact .ok (.push (.cons (.visit body) .nil))
          | false => exact .ok (.push .nil)
        | cons otherwise below =>
          cases below with
          | nil =>
            refine chosen.bind fun b _ same => ?_
            cases same
            cases b with
            | true => exact .ok (.push (.cons (.visit body) .nil))
            | false => exact .ok (.push (.cons (.visit otherwise) .nil))
          | cons => exact .counted .branchCount count
  | call =>
    refine (prepare_agrees known v there).bind fun a b ⟨frame, body⟩ => ?_
    obtain ⟨_, _⟩ := a
    obtain ⟨_, _⟩ := b
    cases frame
    exact .ok (.call _ body)
  | _ => exact drawing

end Forest

end TurtleGraphics
