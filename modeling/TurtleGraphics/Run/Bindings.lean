/-!
A table from names to values. A name has one value at most; giving it another one keeps its place.
-/

namespace TurtleGraphics

structure Bindings (α : Type) where
  toList : List (String × α)
deriving DecidableEq

namespace Bindings

variable {α : Type}

def empty : Bindings α :=
  ⟨[]⟩

def putList (name : String) (value : α) : List (String × α) → List (String × α)
  | [] => [(name, value)]
  | (n, v) :: rest => if n = name then (name, value) :: rest else (n, v) :: putList name value rest

def put (b : Bindings α) (name : String) (value : α) : Bindings α :=
  ⟨putList name value b.toList⟩

def find (name : String) : List (String × α) → Option α
  | [] => none
  | (n, v) :: rest => if n = name then some v else find name rest

def get? (b : Bindings α) (name : String) : Option α :=
  find name b.toList

def has (b : Bindings α) (name : String) : Bool :=
  (b.get? name).isSome

@[simp] theorem get?_empty (name : String) : (empty : Bindings α).get? name = none :=
  rfl

theorem get?_put (b : Bindings α) (name other : String) (value : α) :
    (b.put name value).get? other = if other = name then some value else b.get? other := by
  obtain ⟨entries⟩ := b
  simp only [put, get?]
  induction entries with
  | nil => grind [putList, find]
  | cons e rest ih => grind [putList, find]

theorem has_put (b : Bindings α) (name other : String) (value : α) :
    (b.put name value).has other = (decide (other = name) || b.has other) := by
  simp only [has, get?_put]
  split <;> simp [*]

end Bindings

end TurtleGraphics
