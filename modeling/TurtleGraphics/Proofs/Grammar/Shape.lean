import TurtleGraphics.Proofs.Grammar.Phrase
import TurtleGraphics.Proofs.Run.Shape

/-! The syntax tree of a script has the shape that a run expects. -/

namespace TurtleGraphics.Phrase

open TurtleGraphics.Tree (IsExpression IsCondition IsCommand IsProcedure IsProgram)

theorem AddOperator.kind (op : AddOperator) :
    (Node.ofToken (mark op.text)).kind = .add ∨ (Node.ofToken (mark op.text)).kind = .sub := by
  cases op with
  | plus => exact .inl rfl
  | minus => exact .inr rfl

theorem MultiplyOperator.kind (op : MultiplyOperator) :
    (Node.ofToken (mark op.text)).kind = .mul ∨ (Node.ofToken (mark op.text)).kind = .div := by
  cases op with
  | times => exact .inl rfl
  | divide => exact .inr rfl

theorem shape_sum (op : AddOperator) {a b : Tree Node} (left : IsExpression a)
    (right : IsExpression b) : IsExpression (.node (.ofToken (mark op.text)) [a, b]) := by
  refine .binary ?_ left right
  rcases op.kind with kind | kind
  · exact .inl kind
  · exact .inr (.inl kind)

theorem shape_product (op : MultiplyOperator) {a b : Tree Node} (left : IsExpression a)
    (right : IsExpression b) : IsExpression (.node (.ofToken (mark op.text)) [a, b]) :=
  .binary (.inr (.inr op.kind)) left right

mutual

theorem Factor.shape : (u : Factor) → IsExpression u.tree
  | .name _ => .value (.inr (.inl rfl))
  | .number _ => .value (.inl rfl)
  | .getX => .value (.inr (.inr (.inl rfl)))
  | .getY => .value (.inr (.inr (.inr rfl)))
  | .parens e => e.shape

theorem Factors.shape {left : Tree Node} (first : IsExpression left) :
    (more : Factors) → IsExpression (more.tree left)
  | .nil => first
  | .cons op u more => more.shape (shape_product op first u.shape)

theorem Addends.shape {left : Tree Node} (first : IsExpression left) :
    (further : Addends) → IsExpression (further.tree left)
  | .nil => first
  | .cons op u more further => further.shape (shape_sum op first (more.shape u.shape))

theorem Expression.shape : (e : Expression) → IsExpression e.tree
  | .signed none u more further => further.shape (more.shape u.shape)
  | .signed (some op) u more further => further.shape (more.shape (.sign op.kind u.shape))

end

theorem Condition.shape (c : Condition) : IsCondition c.tree := by
  refine .compare ?_ c.left.shape c.right.shape
  cases c.comparator with
  | less => exact .inl rfl
  | equal => exact .inr (.inl rfl)
  | greater => exact .inr (.inr rfl)

theorem Move.kind (m : Move) : (Node.ofToken (word m.text)).kind = .forward ∨
    (Node.ofToken (word m.text)).kind = .left ∨ (Node.ofToken (word m.text)).kind = .right ∨
    (Node.ofToken (word m.text)).kind = .face := by
  cases m with
  | forward => exact .inl rfl
  | right => exact .inr (.inr (.inl rfl))
  | left => exact .inr (.inl rfl)
  | face => exact .inr (.inr (.inr rfl))

theorem Bare.shape (b : Bare) : IsCommand (atom (word b.text)) := by
  cases b with
  | penUp => exact .bare (.inr (.inl rfl))
  | penDown => exact .bare (.inr (.inr (.inl rfl)))
  | home => exact .bare (.inl rfl)

theorem Shade.shape : (s : Shade) → IsCommand s.tree
  | .named c => .bare (.inr (.inr (.inr ⟨c, by cases c <;> rfl⟩)))
  | .mixed red green blue => .color rfl red.shape green.shape blue.shape

mutual

theorem Command.shape : (c : Command) → IsCommand c.tree
  | .move m e _ => .move m.kind e.shape
  | .bare b _ => b.shape
  | .jump x y _ => .jump rfl x.shape y.shape
  | .assign _ e _ => .assign rfl rfl e.shape
  | .times e body => .times rfl e.shape body.shape
  | .loop c body => .loop rfl c.shape body.shape
  | .branch c body => .branch rfl c.shape body.shape
  | .branchElse c body otherwise => .branchElse rfl c.shape body.shape otherwise.shape
  | .call _ arguments _ => .call rfl fun _ member => by
    obtain ⟨e, _, rfl⟩ := List.mem_map.mp member
    exact e.shape
  | .color shade _ => shade.shape

theorem Block.shape : (b : Block) → IsCommand b.tree
  | .braces _ commands _ => .block rfl commands.shape

theorem Commands.shape : (cs : Commands) → ∀ t ∈ cs.trees, IsCommand t
  | .nil, _, member => nomatch member
  | .cons c more, t, member => by
    rcases List.mem_cons.mp member with rfl | later
    · exact c.shape
    · exact more.shape t later

end

theorem Procedure.shape (p : Procedure) : IsProcedure p.tree :=
  .definition rfl p.body.shape

theorem Script.shape (s : Script) : IsProgram s.tree := by
  refine .program rfl (.block rfl ?_) ?_
  · intro t member
    rcases List.mem_cons.mp member with rfl | later
    · exact s.first.shape
    · obtain ⟨c, _, rfl⟩ := List.mem_map.mp later
      exact c.shape
  · intro t member
    obtain ⟨p, _, rfl⟩ := List.mem_map.mp member
    exact p.shape

end TurtleGraphics.Phrase
