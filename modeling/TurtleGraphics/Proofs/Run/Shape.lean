import TurtleGraphics.Run.Machine

/-!
The shapes of the trees that a run expects, and what they are good for: on a tree of the right shape
no look at a node finds it malformed, and what a command comes to has the right shape again.
-/

namespace TurtleGraphics

inductive RuntimeError.Ordinary : RuntimeError → Prop
  | undefinedVariable (name : String) : Ordinary (.undefinedVariable name)
  | undefinedProcedure (name : String) : Ordinary (.undefinedProcedure name)
  | arityMismatch (name : String) (expected found : Nat) :
    Ordinary (.arityMismatch name expected found)
  | divisionByZero : Ordinary .divisionByZero
  | colorOutOfRange (value : Float) : Ordinary (.colorOutOfRange value)
  | invalidNumber (text : String) : Ordinary (.invalidNumber text)

inductive Gives {α : Type} (good : α → Prop) : Except RuntimeError α → Prop
  | ok {a : α} (result : good a) : Gives good (.ok a)
  | error {e : RuntimeError} (ordinary : e.Ordinary) : Gives good (.error e)

theorem Gives.bind {α β : Type} {good : α → Prop} {fine : β → Prop} {r : Except RuntimeError α}
    {f : α → Except RuntimeError β} (first : Gives good r)
    (next : ∀ a, good a → Gives fine (f a)) : Gives fine (r >>= f) := by
  cases first with
  | ok result => exact next _ result
  | error ordinary => exact .error ordinary

theorem Gives.map {α β : Type} {good : α → Prop} {fine : β → Prop} {r : Except RuntimeError α}
    {f : α → β} (first : Gives good r) (next : ∀ a, good a → fine (f a)) :
    Gives fine (r.map f) := by
  cases first with
  | ok result => exact .ok (next _ result)
  | error ordinary => exact .error ordinary

abbrev Succeeds {α : Type} : Except RuntimeError α → Prop :=
  Gives fun _ => True

namespace Tree

inductive IsExpression : Tree Node → Prop
  | value {n : Node}
    (kind : n.kind = .number ∨ n.kind = .name ∨ n.kind = .getX ∨ n.kind = .getY) :
    IsExpression (.node n [])
  | sign {n : Node} {a : Tree Node} (kind : n.kind = .add ∨ n.kind = .sub)
    (operand : IsExpression a) : IsExpression (.node n [a])
  | binary {n : Node} {a b : Tree Node}
    (kind : n.kind = .add ∨ n.kind = .sub ∨ n.kind = .mul ∨ n.kind = .div)
    (left : IsExpression a) (right : IsExpression b) : IsExpression (.node n [a, b])

inductive IsCondition : Tree Node → Prop
  | compare {n : Node} {a b : Tree Node}
    (kind : n.kind = .less ∨ n.kind = .equal ∨ n.kind = .greater)
    (left : IsExpression a) (right : IsExpression b) : IsCondition (.node n [a, b])

inductive IsCommand : Tree Node → Prop
  | move {n : Node} {e : Tree Node}
    (kind : n.kind = .forward ∨ n.kind = .left ∨ n.kind = .right ∨ n.kind = .face)
    (value : IsExpression e) : IsCommand (.node n [e])
  | bare {n : Node}
    (kind : n.kind = .home ∨ n.kind = .penUp ∨ n.kind = .penDown ∨ ∃ c, n.kind = .namedColor c) :
    IsCommand (.node n [])
  | jump {n : Node} {x y : Tree Node} (kind : n.kind = .jump) (first : IsExpression x)
    (second : IsExpression y) : IsCommand (.node n [x, y])
  | color {n : Node} {red green blue : Tree Node} (kind : n.kind = .color)
    (first : IsExpression red) (second : IsExpression green) (third : IsExpression blue) :
    IsCommand (.node n [red, green, blue])
  | assign {n : Node} {target e : Tree Node} (kind : n.kind = .assign)
    (name : target.value.kind = .name) (value : IsExpression e) : IsCommand (.node n [target, e])
  | times {n : Node} {e body : Tree Node} (kind : n.kind = .times) (count : IsExpression e)
    (again : IsCommand body) : IsCommand (.node n [e, body])
  | loop {n : Node} {c body : Tree Node} (kind : n.kind = .loop) (condition : IsCondition c)
    (again : IsCommand body) : IsCommand (.node n [c, body])
  | branch {n : Node} {c body : Tree Node} (kind : n.kind = .branch) (condition : IsCondition c)
    (chosen : IsCommand body) : IsCommand (.node n [c, body])
  | branchElse {n : Node} {c body otherwise : Tree Node} (kind : n.kind = .branch)
    (condition : IsCondition c) (chosen : IsCommand body) (unchosen : IsCommand otherwise) :
    IsCommand (.node n [c, body, otherwise])
  | call {n : Node} {name arguments : Tree Node} (kind : n.kind = .call)
    (values : ∀ a ∈ arguments.children, IsExpression a) : IsCommand (.node n [name, arguments])
  | block {n : Node} {ts : List (Tree Node)} (kind : n.kind = .block)
    (commands : ∀ t ∈ ts, IsCommand t) : IsCommand (.node n ts)

inductive IsProcedure : Tree Node → Prop
  | definition {n h : Node} {name parameters body : Tree Node} (kind : n.kind = .definition)
    (commands : IsCommand body) : IsProcedure (.node n [.node h [name, parameters], body])

inductive IsProgram : Tree Node → Prop
  | program {n : Node} {block list : Tree Node} (kind : n.kind = .program)
    (commands : IsCommand block) (procedures : ∀ p ∈ list.children, IsProcedure p) :
    IsProgram (.node n [block, list])

end Tree

open TurtleGraphics.Tree (IsExpression IsCondition IsCommand IsProcedure IsProgram)

theorem twoChildren_bind {α : Type} (n : Node) (a b : Tree Node)
    (f : Tree Node × Tree Node → Except RuntimeError α) :
    (twoChildren n [a, b] >>= f) = f (a, b) :=
  rfl

theorem literalValue_succeeds (text : String) : Succeeds (literalValue text) := by
  unfold literalValue
  dsimp only
  split
  · exact .ok trivial
  · exact .error (.invalidNumber text)

namespace View

variable (v : View)

theorem evaluate_name (token : Token) : v.evaluate (.node ⟨.name, token⟩ []) =
    (v.fetch token.text).elim (.error (.undefinedVariable token.text)) .ok := by
  -- no other name is looked up
  have same : v.evaluate (.node ⟨.name, token⟩ []) =
      View.evaluate ⟨fun _ => v.fetch token.text, v.x, v.y⟩ (.node ⟨.name, token⟩ []) := rfl
  rw [same]
  cases v.fetch token.text with
  | some x => rfl
  | none => rfl

theorem evaluate_succeeds {t : Tree Node} (shape : IsExpression t) :
    Succeeds (v.evaluate t) := by
  induction shape with
  | @value n kind =>
    obtain ⟨_, token⟩ := n
    rcases kind with rfl | rfl | rfl | rfl
    · have same : v.evaluate (.node ⟨.number, token⟩ []) = literalValue token.text := rfl
      rw [same]
      exact literalValue_succeeds token.text
    · rw [v.evaluate_name]
      cases v.fetch token.text with
      | none => exact .error (.undefinedVariable token.text)
      | some x => exact .ok trivial
    · exact .ok trivial
    · exact .ok trivial
  | @sign n a kind _ ih =>
    obtain ⟨_, token⟩ := n
    rcases kind with rfl | rfl
    · exact ih
    · exact ih.map fun _ _ => trivial
  | @binary n a b kind _ _ first second =>
    have computed (f : Float → Float → Float) :
        Succeeds (do return f (← v.evaluate a) (← v.evaluate b)) :=
      first.bind fun x _ => second.bind fun y _ => .ok trivial
    obtain ⟨_, token⟩ := n
    rcases kind with rfl | rfl | rfl | rfl
    · exact computed _
    · exact computed _
    · exact computed _
    · refine first.bind fun x _ => second.bind fun y _ => ?_
      -- the only operator that can fail on two values
      by_cases zero : y == 0
      · simp only [zero, if_true]
        exact .error .divisionByZero
      · simp only [zero]
        exact .ok trivial

theorem holds_succeeds {t : Tree Node} (shape : IsCondition t) : Succeeds (v.holds t) := by
  cases shape with
  | @compare n a b kind left right =>
    have compared (f : Float → Float → Bool) :
        Succeeds (do return f (← v.evaluate a) (← v.evaluate b)) :=
      (v.evaluate_succeeds left).bind fun x _ =>
        (v.evaluate_succeeds right).bind fun y _ => .ok trivial
    obtain ⟨_, token⟩ := n
    rcases kind with rfl | rfl | rfl
    · exact compared _
    · exact compared _
    · exact compared _

theorem operand_succeeds {e : Tree Node} (shape : IsExpression e) (n : Node) :
    Succeeds (v.operand n [e]) :=
  v.evaluate_succeeds shape

theorem channelOf_succeeds (x : Float) : Succeeds (channelOf x) := by
  unfold channelOf
  split
  · exact .ok trivial
  · exact .error (.colorOutOfRange x)
  · dsimp only
    split
    · exact .error (.colorOutOfRange x)
    · exact .ok trivial

theorem channel_succeeds {t : Tree Node} (shape : IsExpression t) : Succeeds (v.channel t) :=
  (v.evaluate_succeeds shape).bind fun x _ => channelOf_succeeds x

end View

namespace Machine

def Sorted (procedures : Bindings (Tree Node)) : Prop :=
  ∀ name t, procedures.get? name = some t → IsProcedure t

theorem sorted_empty : Sorted .empty := by
  intro name t found
  cases found

theorem Sorted.put {procedures : Bindings (Tree Node)} {t : Tree Node} (sorted : Sorted procedures)
    (shape : IsProcedure t) (name : String) : Sorted (procedures.put name t) := by
  intro other u found
  rw [Bindings.get?_put] at found
  split at found
  · cases found
    exact shape
  · exact sorted other u found

end Machine

def Task.Shaped : Task → Prop
  | .visit t => IsProgram t ∨ IsCommand t
  | .times _ body => IsCommand body
  | .loop condition body => IsCondition condition ∧ IsCommand body
  | .leave => True

def Deed.Shaped : Deed → Prop
  | .order _ => True
  | .store _ _ => True
  | .push tasks => ∀ t ∈ tasks, t.Shaped
  | .define procedures block => Machine.Sorted procedures ∧ IsCommand block
  | .call _ body => IsCommand body

namespace Machine

theorem defineAll_gives {ps : List (Tree Node)} (shapes : ∀ p ∈ ps, IsProcedure p)
    {procedures : Bindings (Tree Node)} (sorted : Sorted procedures) :
    Gives Sorted (defineAll procedures ps) := by
  induction ps generalizing procedures with
  | nil => exact .ok sorted
  | cons p ps ih =>
    have shape : IsProcedure p := shapes p (by simp)
    cases shape with
    | @definition n h name parameters body kind commands =>
      unfold defineAll
      rw [if_neg (by simp [kind])]
      apply ih fun q member => shapes q (by simp [member])
      exact sorted.put (.definition kind commands) _

theorem bind_succeeds (v : View) (ps : List (Tree Node)) {as : List (Tree Node)}
    (shapes : ∀ a ∈ as, IsExpression a) (frame : Bindings Float) :
    Succeeds (bind v frame ps as) := by
  induction ps generalizing as frame with
  | nil => exact .ok trivial
  | cons p ps ih =>
    cases as with
    | nil => exact .ok trivial
    | cons a as =>
      refine (v.evaluate_succeeds (shapes a (by simp))).bind fun x _ => ?_
      exact ih (fun b member => shapes b (by simp [member])) _

theorem prepare_gives {procedures : Bindings (Tree Node)} (sorted : Sorted procedures) (v : View)
    (n : Node) (name : Tree Node) {arguments : Tree Node}
    (values : ∀ a ∈ arguments.children, IsExpression a) :
    Gives (fun ready => IsCommand ready.2) (prepare procedures v n [name, arguments]) := by
  rw [prepare, twoChildren_bind]
  dsimp only
  cases found : procedures.get? name.value.text with
  | none => exact .error (.undefinedProcedure _)
  | some t =>
    cases sorted _ _ found with
    | @definition d h title parameters body kind commands =>
      dsimp only
      rw [twoChildren_bind]
      dsimp only
      rw [twoChildren_bind]
      dsimp only
      by_cases same : parameters.children.length = arguments.children.length
      · rw [if_neg (by simpa using same)]
        exact (bind_succeeds v parameters.children values .empty).bind fun frame _ => .ok commands
      · rw [if_pos same]
        exact .error (.arityMismatch _ _ _)

theorem order_gives {r : Except RuntimeError Order} (found : Succeeds r) :
    Gives Deed.Shaped (r.map .order) :=
  found.map fun _ _ => trivial

theorem define_gives {procedures : Bindings (Tree Node)} (sorted : Sorted procedures) (v : View)
    {t : Tree Node} (shape : IsProgram t) : Gives Deed.Shaped (deed procedures v t) := by
  cases shape with
  | @program n block list kind commands definitions =>
    obtain ⟨_, token⟩ := n
    obtain rfl := kind
    exact (defineAll_gives definitions sorted).bind fun noted fine => .ok ⟨fine, commands⟩

theorem command_gives {procedures : Bindings (Tree Node)} (sorted : Sorted procedures) (v : View)
    {t : Tree Node} (shape : IsCommand t) : Gives Deed.Shaped (deed procedures v t) := by
  cases shape with
  | @move n e kind value =>
    have given : Succeeds (v.operand n [e]) := v.operand_succeeds value n
    obtain ⟨_, token⟩ := n
    rcases kind with rfl | rfl | rfl | rfl
    · exact order_gives (given.map fun _ _ => trivial)
    · exact order_gives (given.map fun _ _ => trivial)
    · exact order_gives (given.map fun _ _ => trivial)
    · exact order_gives (given.map fun _ _ => trivial)
  | @bare n kind =>
    obtain ⟨_, token⟩ := n
    rcases kind with rfl | rfl | rfl | ⟨c, rfl⟩
    · exact .ok trivial
    · exact .ok trivial
    · exact .ok trivial
    · exact .ok trivial
  | @jump n x y kind first second =>
    obtain ⟨_, token⟩ := n
    obtain rfl := kind
    have given := (v.evaluate_succeeds first).bind fun a _ =>
      (v.evaluate_succeeds second).bind fun b _ =>
        (Gives.ok trivial : Succeeds (.ok (Order.jumpTo a b)))
    exact order_gives given
  | @color n red green blue kind first second third =>
    obtain ⟨_, token⟩ := n
    obtain rfl := kind
    have given := (v.channel_succeeds first).bind fun a _ =>
      (v.channel_succeeds second).bind fun b _ => (v.channel_succeeds third).bind fun c _ =>
        (Gives.ok trivial : Succeeds (.ok (Order.colorRgb (View.pack a b c))))
    exact order_gives given
  | @assign n target e kind name value =>
    obtain ⟨_, token⟩ := n
    obtain rfl := kind
    obtain ⟨⟨_, written⟩, below⟩ := target
    obtain rfl := name
    exact (v.evaluate_succeeds value).bind fun x _ => .ok trivial
  | @times n e body kind count again =>
    obtain ⟨_, token⟩ := n
    obtain rfl := kind
    refine (v.evaluate_succeeds count).bind fun x _ => .ok ?_
    simpa [Deed.Shaped, Task.Shaped] using again
  | @loop n c body kind condition again =>
    obtain ⟨_, token⟩ := n
    obtain rfl := kind
    apply Gives.ok
    simpa [Deed.Shaped, Task.Shaped] using ⟨condition, again⟩
  | @branch n c body kind condition chosen =>
    obtain ⟨_, token⟩ := n
    obtain rfl := kind
    refine (v.holds_succeeds condition).bind fun b _ => .ok ?_
    cases b with
    | false => simp [Deed.Shaped]
    | true => simpa [Deed.Shaped, Task.Shaped] using .inr chosen
  | @branchElse n c body otherwise kind condition chosen unchosen =>
    obtain ⟨_, token⟩ := n
    obtain rfl := kind
    refine (v.holds_succeeds condition).bind fun b _ => .ok ?_
    cases b with
    | false => simpa [Deed.Shaped, Task.Shaped] using .inr unchosen
    | true => simpa [Deed.Shaped, Task.Shaped] using .inr chosen
  | @call n name arguments kind values =>
    obtain ⟨_, token⟩ := n
    obtain rfl := kind
    exact (prepare_gives sorted v _ name values).bind fun ready body => .ok body
  | @block n ts kind commands =>
    obtain ⟨_, token⟩ := n
    obtain rfl := kind
    apply Gives.ok
    intro task member
    obtain ⟨t, inside, rfl⟩ := List.mem_map.mp member
    exact .inr (commands t inside)

theorem round_gives (v : View) {condition body : Tree Node} (shape : IsCondition condition)
    (again : IsCommand body) : Gives Deed.Shaped (round v condition body) := by
  refine (v.holds_succeeds shape).bind fun b _ => .ok ?_
  intro t member
  cases b with
  | false => simp at member
  | true =>
    simp only [if_true, List.mem_cons, List.not_mem_nil, or_false] at member
    rcases member with rfl | rfl
    · exact .inr again
    · exact ⟨shape, again⟩

end Machine

end TurtleGraphics
