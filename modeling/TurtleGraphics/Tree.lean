/-! Ordered trees with any number of children, as values. -/

namespace TurtleGraphics

inductive Tree (α : Type) where
  | node (value : α) (children : List (Tree α))

namespace Tree

variable {α β : Type}

def value : Tree α → α
  | node v _ => v

def children : Tree α → List (Tree α)
  | node _ ts => ts

mutual

def size : Tree α → Nat
  | node _ ts => sizeAll ts + 1

def sizeAll : List (Tree α) → Nat
  | [] => 0
  | t :: ts => t.size + sizeAll ts

end

mutual

def preorder : Tree α → List α
  | node v ts => v :: preorderAll ts

def preorderAll : List (Tree α) → List α
  | [] => []
  | t :: ts => t.preorder ++ preorderAll ts

end

mutual

def map (f : α → β) : Tree α → Tree β
  | node v ts => node (f v) (mapAll f ts)

def mapAll (f : α → β) : List (Tree α) → List (Tree β)
  | [] => []
  | t :: ts => t.map f :: mapAll f ts

end

mutual

def beq [BEq α] : Tree α → Tree α → Bool
  | node v ts, node w us => v == w && beqAll ts us

def beqAll [BEq α] : List (Tree α) → List (Tree α) → Bool
  | [], [] => true
  | t :: ts, u :: us => t.beq u && beqAll ts us
  | _, _ => false

end

instance [BEq α] : BEq (Tree α) :=
  ⟨beq⟩

theorem beq_iff_eq [BEq α] [LawfulBEq α] (t u : Tree α) : t.beq u = true ↔ t = u := by
  refine Tree.rec (motive_1 := fun t => ∀ u, t.beq u = true ↔ t = u)
    (motive_2 := fun ts => ∀ us, beqAll ts us = true ↔ ts = us) ?_ ?_ ?_ t u
  · intro v ts ih u
    cases u with
    | node w us => simp [beq, ih us]
  · intro us
    cases us <;> simp [beqAll]
  · intro t ts ht hts us
    cases us <;> simp [beqAll, ht, hts]

instance [BEq α] [LawfulBEq α] : LawfulBEq (Tree α) where
  eq_of_beq h := (beq_iff_eq _ _).mp h
  rfl := (beq_iff_eq _ _).mpr rfl

theorem length_preorder (t : Tree α) : t.preorder.length = t.size := by
  refine Tree.rec (motive_1 := fun t => t.preorder.length = t.size)
    (motive_2 := fun ts => (preorderAll ts).length = sizeAll ts) ?_ ?_ ?_ t
  · intro v ts ih
    simp [preorder, size, ih]
  · rfl
  · intro t ts ht hts
    simp [preorderAll, sizeAll, ht, hts]

end Tree

end TurtleGraphics
