import TurtleGraphics.Proofs.Run.Dispatch
import TurtleGraphics.Proofs.Run.Literal

/-!
Which parts of a program are evaluated in a run. The values that a command needs are found from left
to right, each once there are those before it. A literal that has no value ends the run when it is
evaluated, and only then.
-/

namespace TurtleGraphics

open TurtleGraphics.Tree (IsCondition IsCommand)

def Tree.Unreadable (w : String) (u : Tree Node) : Prop :=
  ∃ n, u = .node n [] ∧ n.kind = .number ∧ literalValue n.text = .error (.invalidNumber w)

namespace View

inductive Evaluates (v : View) : Tree Node → Tree Node → Prop
  | self {t : Tree Node} : Evaluates v t t
  | sign {n : Node} {a u : Tree Node} (kind : n.kind = .add ∨ n.kind = .sub)
    (operand : Evaluates v a u) : Evaluates v (.node n [a]) u
  | left {n : Node} {a b u : Tree Node}
    (kind : n.kind = .add ∨ n.kind = .sub ∨ n.kind = .mul ∨ n.kind = .div)
    (first : Evaluates v a u) : Evaluates v (.node n [a, b]) u
  | right {n : Node} {a b u : Tree Node} {x : Float}
    (kind : n.kind = .add ∨ n.kind = .sub ∨ n.kind = .mul ∨ n.kind = .div)
    (value : v.evaluate a = .ok x) (second : Evaluates v b u) : Evaluates v (.node n [a, b]) u

/-- What is evaluated when these trees are, one after the other, as long as each is fine. -/
def EvaluatesIn (v : View) (fine : Tree Node → Prop) : List (Tree Node) → Tree Node → Prop
  | [], _ => False
  | t :: ts, u => v.Evaluates t u ∨ fine t ∧ v.EvaluatesIn fine ts u

variable (v : View) {w : String}

theorem unreadable_of_error {t : Tree Node} (h : v.evaluate t = .error (.invalidNumber w)) :
    ∃ u, v.Evaluates t u ∧ u.Unreadable w := by
  have binary {n : Node} {a b : Tree Node} {f : Float → Float → Except RuntimeError Float}
      (kind : n.kind = .add ∨ n.kind = .sub ∨ n.kind = .mul ∨ n.kind = .div)
      (first : v.evaluate a = .error (.invalidNumber w) → ∃ u, v.Evaluates a u ∧ u.Unreadable w)
      (second : v.evaluate b = .error (.invalidNumber w) → ∃ u, v.Evaluates b u ∧ u.Unreadable w)
      (total : ∀ x y, f x y ≠ .error (.invalidNumber w))
      (h : (v.evaluate a >>= fun x => v.evaluate b >>= fun y => f x y) =
        .error (.invalidNumber w)) : ∃ u, v.Evaluates (.node n [a, b]) u ∧ u.Unreadable w := by
    rcases error_of_bind h with wrong | ⟨x, value, rest⟩
    · exact (first wrong).imp fun u => And.imp_left (.left kind)
    · rcases error_of_bind rest with wrong | ⟨y, _, last⟩
      · exact (second wrong).imp fun u => And.imp_left (.right kind value)
      · exact absurd last (total x y)
  fun_induction View.evaluate v t with
  | case1 n kind => exact ⟨_, .self, n, rfl, kind, h⟩
  | case2 | case3 | case4 | case5 => cases h
  | case6 n a kind operand => exact (operand h).imp fun u => And.imp_left (.sign (.inl kind))
  | case7 n a kind operand =>
    exact (operand (error_of_map h)).imp fun u => And.imp_left (.sign (.inr kind))
  | case8 n a b kind first second =>
    refine binary (.inl kind) first second (fun x y same => ?_) h
    cases same
  | case9 n a b kind first second =>
    refine binary (.inr (.inl kind)) first second (fun x y same => ?_) h
    cases same
  | case10 n a b kind first second =>
    refine binary (.inr (.inr (.inl kind))) first second (fun x y same => ?_) h
    cases same
  | case11 n a b kind first second =>
    refine binary (.inr (.inr (.inr kind))) first second (fun x y same => ?_) h
    dsimp only at same
    split at same <;> cases same
  | case12 | case13 | case14 | case15 | case16 | case17 | case18 | case19 | case20 => cases h

theorem error_of_unreadable {t u : Tree Node} (evaluated : v.Evaluates t u)
    (unreadable : u.Unreadable w) : v.evaluate t = .error (.invalidNumber w) := by
  induction evaluated with
  | self =>
    obtain ⟨⟨_, token⟩, rfl, rfl, wrong⟩ := unreadable
    exact wrong
  | @sign n a u kind _ operand =>
    have wrong := operand unreadable
    obtain ⟨_, token⟩ := n
    rcases kind with rfl | rfl
    · exact wrong
    · exact map_eq_error_iff.mpr wrong
  | @left n a b u kind _ first =>
    have wrong := first unreadable
    obtain ⟨_, token⟩ := n
    rcases kind with rfl | rfl | rfl | rfl <;> exact bind_eq_error_iff.mpr (.inl wrong)
  | @right n a b u x kind value _ second =>
    have wrong := second unreadable
    obtain ⟨_, token⟩ := n
    rcases kind with rfl | rfl | rfl | rfl <;>
      exact bind_eq_error_iff.mpr (.inr ⟨x, value, bind_eq_error_iff.mpr (.inl wrong)⟩)

/-- A literal that cannot be read is found if and only if one is evaluated. -/
theorem evaluate_eq_error_iff (t : Tree Node) : v.evaluate t = .error (.invalidNumber w) ↔
    ∃ u, v.Evaluates t u ∧ u.Unreadable w :=
  ⟨v.unreadable_of_error, fun ⟨_, evaluated, unreadable⟩ =>
    v.error_of_unreadable evaluated unreadable⟩

def Meets (fine : Tree Node → Prop) (ts : List (Tree Node)) (w : String) : Prop :=
  ∃ u, v.EvaluatesIn fine ts u ∧ u.Unreadable w

section Meets

variable {v} {α : Type} {fine : Tree Node → Prop} {t : Tree Node} {ts : List (Tree Node)}

theorem not_meets_nil : ¬ v.Meets fine [] w :=
  fun ⟨_, nothing, _⟩ => nothing

theorem meets_cons : v.Meets fine (t :: ts) w ↔
    v.evaluate t = .error (.invalidNumber w) ∨ fine t ∧ v.Meets fine ts w := by
  simp only [Meets, EvaluatesIn, evaluate_eq_error_iff, or_and_right, exists_or, and_assoc,
    exists_and_left]

theorem meets_last {r : Except RuntimeError α} (fails : r ≠ .error (.invalidNumber w)) :
    r = .error (.invalidNumber w) ↔ v.Meets fine [] w :=
  iff_of_false fails not_meets_nil

/-- A value is found, and then the others. -/
theorem meets_bind {β : Type} {r : Except RuntimeError α} {next : α → Except RuntimeError β}
    (wrong : r = .error (.invalidNumber w) ↔ v.evaluate t = .error (.invalidNumber w))
    (right : fine t ↔ ∃ x, r = .ok x)
    (others : ∀ x, next x = .error (.invalidNumber w) ↔ v.Meets fine ts w) :
    (r >>= next) = .error (.invalidNumber w) ↔ v.Meets fine (t :: ts) w := by
  rw [bind_eq_error_iff, meets_cons, wrong, right]
  simp only [others, exists_and_right]

end Meets

def Has (t : Tree Node) : Prop :=
  ∃ x, v.evaluate t = .ok x

def HasChannel (t : Tree Node) : Prop :=
  ∃ c, v.channel t = .ok c

theorem channelOf_ne_invalid (x : Float) : channelOf x ≠ .error (.invalidNumber w) := by
  unfold channelOf
  split
  · simp
  · simp
  · dsimp only
    split <;> simp

theorem channel_eq_error_iff {t : Tree Node} : v.channel t = .error (.invalidNumber w) ↔
    v.evaluate t = .error (.invalidNumber w) := by
  simp [channel, bind_eq_error_iff, channelOf_ne_invalid]

theorem holds_eq_error_iff {c : Tree Node} (shape : IsCondition c) :
    v.holds c = .error (.invalidNumber w) ↔ v.Meets v.Has c.children w := by
  cases shape with
  | @compare n a b kind left right =>
    have compared (f : Float → Float → Bool) :
        (do return f (← v.evaluate a) (← v.evaluate b) : Except RuntimeError Bool) =
          .error (.invalidNumber w) ↔ v.Meets v.Has [a, b] w :=
      meets_bind .rfl .rfl fun x => meets_bind .rfl .rfl fun y => meets_last nofun
    obtain ⟨_, token⟩ := n
    rcases kind with rfl | rfl | rfl
    · exact compared _
    · exact compared _
    · exact compared _

end View

namespace Machine

variable {procedures : Bindings (Tree Node)} {v : View} {w : String}

def accepts (procedures : Bindings (Tree Node)) (name arguments : Tree Node) : Bool :=
  match procedures.get? name.value.text with
  | some (.node _ [.node _ [_, parameters], _]) =>
    parameters.children.length == arguments.children.length
  | _ => false

/-- The expressions that a command evaluates, in order. The parameters of a call are counted before,
and other commands have no expressions of their own. -/
def operands (procedures : Bindings (Tree Node)) : Tree Node → List (Tree Node)
  | .node n ts => match n.kind, ts with
    | .forward, [e] | .left, [e] | .right, [e] | .face, [e] => [e]
    | .jump, [x, y] => [x, y]
    | .color, [red, green, blue] => [red, green, blue]
    | .assign, [_, e] => [e]
    | .times, [e, _] => [e]
    | .branch, condition :: _ => condition.children
    | .call, [name, arguments] =>
      if accepts procedures name arguments then arguments.children else []
    | _, _ => []

/-- What must be true of an operand before the next one is evaluated. -/
def Settles (v : View) : Tree Node → Tree Node → Prop
  | .node n _ => match n.kind with
    | .color => v.HasChannel
    | _ => v.Has

theorem bind_eq_invalid_iff {ps as : List (Tree Node)} (counted : ps.length = as.length)
    (frame : Bindings Float) :
    bind v frame ps as = .error (.invalidNumber w) ↔ v.Meets v.Has as w := by
  induction ps generalizing as frame with
  | nil =>
    obtain rfl := List.eq_nil_of_length_eq_zero counted.symm
    exact View.meets_last nofun
  | cons p ps ih =>
    cases as with
    | nil => cases counted
    | cons a as => exact View.meets_bind .rfl .rfl fun x => ih (Nat.succ.inj counted) _

theorem prepare_eq_invalid_iff (sorted : Sorted procedures) (n : Node)
    (name arguments : Tree Node) :
    prepare procedures v n [name, arguments] = .error (.invalidNumber w) ↔
      v.Meets v.Has (if accepts procedures name arguments then arguments.children else []) w := by
  rw [prepare, twoChildren_bind]
  dsimp only
  unfold accepts
  cases found : procedures.get? name.value.text with
  | none =>
    refine View.meets_last fun undefined => ?_
    cases undefined
  | some t =>
    cases sorted _ _ found with
    | @definition d h title parameters body kind commands =>
      dsimp only
      rw [twoChildren_bind]
      dsimp only
      rw [twoChildren_bind]
      dsimp only
      by_cases same : parameters.children.length = arguments.children.length
      · rw [if_neg (by simpa using same), if_pos (by simpa using same)]
        exact (bind_ok_eq_error_iff _).trans (bind_eq_invalid_iff same .empty)
      · rw [if_pos same, if_neg (by simpa using same)]
        refine View.meets_last fun mismatch => ?_
        cases mismatch

theorem command_eq_invalid_iff (sorted : Sorted procedures) {t : Tree Node} (shape : IsCommand t) :
    deed procedures v t = .error (.invalidNumber w) ↔
      v.Meets (Settles v t) (operands procedures t) w := by
  cases shape with
  | @move n e kind value =>
    have given (f : Float → Order) : ((v.evaluate e).map f).map Deed.order =
        .error (.invalidNumber w) ↔ v.Meets v.Has [e] w := by
      rw [map_eq_error_iff, map_eq_error_iff]
      simp [View.meets_cons, View.not_meets_nil]
    obtain ⟨_, token⟩ := n
    rcases kind with rfl | rfl | rfl | rfl <;> exact given _
  | @bare n kind =>
    obtain ⟨_, token⟩ := n
    rcases kind with rfl | rfl | rfl | ⟨c, rfl⟩ <;> exact View.meets_last nofun
  | @jump n x y kind first second =>
    obtain ⟨_, token⟩ := n
    obtain rfl := kind
    have given : (do return Order.jumpTo (← v.evaluate x) (← v.evaluate y) :
        Except RuntimeError Order) = .error (.invalidNumber w) ↔ v.Meets v.Has [x, y] w :=
      View.meets_bind .rfl .rfl fun _ => View.meets_bind .rfl .rfl fun _ => View.meets_last nofun
    exact map_eq_error_iff.trans given
  | @color n red green blue kind first second third =>
    obtain ⟨_, token⟩ := n
    obtain rfl := kind
    have given : (do return Order.colorRgb (View.pack (← v.channel red) (← v.channel green)
        (← v.channel blue)) : Except RuntimeError Order) = .error (.invalidNumber w) ↔
          v.Meets v.HasChannel [red, green, blue] w :=
      View.meets_bind v.channel_eq_error_iff .rfl fun _ =>
        View.meets_bind v.channel_eq_error_iff .rfl fun _ =>
          View.meets_bind v.channel_eq_error_iff .rfl fun _ => View.meets_last nofun
    exact map_eq_error_iff.trans given
  | @assign n target e kind name value =>
    obtain ⟨_, token⟩ := n
    obtain rfl := kind
    obtain ⟨⟨_, written⟩, below⟩ := target
    obtain rfl := name
    have given : (do return Deed.store written.text (← v.evaluate e) : Except RuntimeError Deed) =
        .error (.invalidNumber w) ↔ v.Meets v.Has [e] w :=
      View.meets_bind .rfl .rfl fun _ => View.meets_last nofun
    exact given
  | @times n e body kind count again =>
    obtain ⟨_, token⟩ := n
    obtain rfl := kind
    have given : (do return Deed.push [.times (Decimal.count (← v.evaluate e)) body] :
        Except RuntimeError Deed) = .error (.invalidNumber w) ↔ v.Meets v.Has [e] w :=
      View.meets_bind .rfl .rfl fun _ => View.meets_last nofun
    exact given
  | @loop n c body kind condition again =>
    obtain ⟨_, token⟩ := n
    obtain rfl := kind
    exact View.meets_last nofun
  | @branch n c body kind condition chosen =>
    obtain ⟨_, token⟩ := n
    obtain rfl := kind
    exact (bind_ok_eq_error_iff _).trans (v.holds_eq_error_iff condition)
  | @branchElse n c body otherwise kind condition chosen unchosen =>
    obtain ⟨_, token⟩ := n
    obtain rfl := kind
    exact (bind_ok_eq_error_iff _).trans (v.holds_eq_error_iff condition)
  | @call n name arguments kind values =>
    obtain ⟨_, token⟩ := n
    obtain rfl := kind
    exact (bind_ok_eq_error_iff _).trans (prepare_eq_invalid_iff sorted _ name arguments)
  | @block n ts kind commands =>
    obtain ⟨_, token⟩ := n
    obtain rfl := kind
    exact View.meets_last nofun

theorem round_eq_invalid_iff {condition body : Tree Node} (shape : IsCondition condition) :
    round v condition body = .error (.invalidNumber w) ↔ v.Meets v.Has condition.children w :=
  (bind_ok_eq_error_iff _).trans (v.holds_eq_error_iff shape)

end Machine

end TurtleGraphics
