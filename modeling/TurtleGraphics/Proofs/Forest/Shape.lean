import TurtleGraphics.Forest.Edit

/-!
The trees in a forest. A handle shows a tree when following the children yields it and every link
is noted at both ends. What is made next to it, and what is attached to roots elsewhere, leaves it
as it is.
-/

namespace TurtleGraphics

variable {α : Type}

theorem Tree.sizeAll_append (ts us : List (Tree α)) :
    sizeAll (ts ++ us) = sizeAll ts + sizeAll us := by
  induction ts with
  | nil => simp [sizeAll]
  | cons t ts ih => simp [sizeAll, ih, Nat.add_assoc]

theorem Tree.sizeAll_perm {ts us : List (Tree α)} (h : ts.Perm us) : sizeAll ts = sizeAll us := by
  induction h with
  | nil => rfl
  | cons t _ ih => simp [sizeAll, ih]
  | swap t u ts => simp only [sizeAll]; omega
  | trans _ _ first second => exact first.trans second

namespace Forest

mutual

inductive Shows (f : Forest α) : Option Nat → Nat → Tree α → Prop
  | node {parent : Option Nat} {h : Nat} {v : α} {hs : List Nat} {ts : List (Tree α)}
    (entry : f.entries[h]? = some ⟨v, hs, parent⟩) (below : ShowsAll f h hs ts) :
    Shows f parent h (.node v ts)

inductive ShowsAll (f : Forest α) : Nat → List Nat → List (Tree α) → Prop
  | nil {parent : Nat} : ShowsAll f parent [] []
  | cons {parent h : Nat} {hs : List Nat} {t : Tree α} {ts : List (Tree α)}
    (first : Shows f (some parent) h t) (rest : ShowsAll f parent hs ts) :
    ShowsAll f parent (h :: hs) (t :: ts)

end

/-- Every node that has a parent is the same in the other forest. -/
def Keeps (f g : Forest α) : Prop :=
  ∀ (h : Nat) (e : Entry α), f.entries[h]? = some e → e.parent ≠ none → g.entries[h]? = some e

variable {f g k : Forest α} {parent : Option Nat} {h : Nat} {t : Tree α}

theorem Shows.entry (shown : f.Shows parent h t) :
    ∃ hs, f.entries[h]? = some ⟨t.value, hs, parent⟩ ∧ f.ShowsAll h hs t.children := by
  cases shown with
  | node entry below => exact ⟨_, entry, below⟩

theorem Shows.lt_size (shown : f.Shows parent h t) : h < f.size := by
  obtain ⟨hs, entry, -⟩ := shown.entry
  exact (Array.getElem?_eq_some_iff.mp entry).1

mutual

theorem Shows.transfer (kept : f.Keeps g) {parent : Option Nat} {h : Nat} {t : Tree α} :
    f.Shows parent h t → g.entries[h]? = f.entries[h]? → g.Shows parent h t
  | .node entry below, same => .node (same.trans entry) (below.transfer kept)

theorem ShowsAll.transfer (kept : f.Keeps g) {parent : Nat} {hs : List Nat} {ts : List (Tree α)} :
    f.ShowsAll parent hs ts → g.ShowsAll parent hs ts
  | .nil => .nil
  | .cons first rest => by
    obtain ⟨_, entry, _⟩ := first.entry
    have same := (kept _ _ entry (by simp)).trans entry.symm
    exact .cons (first.transfer kept same) (rest.transfer kept)

end

theorem ShowsAll.append {parent : Nat} {hs ks : List Nat} {ts us : List (Tree α)}
    (left : f.ShowsAll parent hs ts) (right : f.ShowsAll parent ks us) :
    f.ShowsAll parent (hs ++ ks) (ts ++ us) := by
  induction ts generalizing hs with
  | nil =>
    cases left
    exact right
  | cons t ts ih =>
    cases left with
    | cons first rest => exact .cons first (ih rest)

theorem ShowsAll.of_mem {parent : Nat} {hs : List Nat} {ts : List (Tree α)}
    (shown : f.ShowsAll parent hs ts) : ∀ h ∈ hs, ∃ t, f.Shows (some parent) h t := by
  induction hs generalizing ts with
  | nil => simp
  | cons k hs ih =>
    cases shown with
    | cons first rest =>
      intro h member
      rcases List.mem_cons.mp member with rfl | later
      · exact ⟨_, first⟩
      · exact ih rest h later

mutual

/-- There is room for a tree below as many levels as it has nodes. -/
theorem Shows.treeWithin {parent : Option Nat} {h : Nat} {t : Tree α} :
    f.Shows parent h t → ∀ depth, t.size ≤ depth → f.treeWithin depth h = .ok t
  | .node entry below, depth, room => by
    cases depth with
    | zero => simp [Tree.size] at room
    | succ depth =>
      have rest := below.treesWithin depth (by simpa [Tree.size] using room)
      simp only [Forest.treeWithin, Forest.entry, entry, bind, Except.bind, rest]
      rfl

theorem ShowsAll.treesWithin {parent : Nat} {hs : List Nat} {ts : List (Tree α)} :
    f.ShowsAll parent hs ts → ∀ depth, Tree.sizeAll ts ≤ depth →
      hs.mapM (f.treeWithin depth) = .ok ts
  | .nil, _, _ => rfl
  | .cons first rest, depth, room => by
    simp only [Tree.sizeAll] at room
    rw [List.mapM_cons, first.treeWithin depth (by omega)]
    rw [rest.treesWithin depth (by omega)]
    rfl

end

theorem Shows.tree (shown : f.Shows parent h t) (room : t.size ≤ f.size) : f.tree h = .ok t :=
  shown.treeWithin _ (by omega)

/-- A search that starts at other trees never comes to a root. -/
theorem not_mem_looked {root : Nat} {e : Entry α} (entry : f.entries[root]? = some e)
    (detached : e.parent = none) (steps : Nat) (waiting : List Nat)
    (others : ∀ w ∈ waiting, w ≠ root ∧ ∃ parent t, f.Shows parent w t) :
    root ∉ f.looked root steps waiting := by
  induction steps generalizing waiting with
  | zero => cases waiting <;> simp [looked]
  | succ steps ih =>
    cases waiting with
    | nil => simp [looked]
    | cons w waiting =>
      obtain ⟨differs, parent, t, shown⟩ := others w (by simp)
      obtain ⟨hs, here, below⟩ := shown.entry
      have further : ∀ x ∈ f.below w ++ waiting, x ≠ root ∧ ∃ parent t, f.Shows parent x t := by
        intro x member
        rcases List.mem_append.mp member with child | later
        · simp only [Forest.below, here, Option.elim_some] at child
          obtain ⟨u, shown⟩ := below.of_mem x child
          refine ⟨?_, _, u, shown⟩
          rintro rfl
          obtain ⟨ks, attached, -⟩ := shown.entry
          rw [entry] at attached
          cases attached
          cases detached
        · exact others x (by simp [later])
      have rest := ih _ further
      simp only [looked, if_neg differs, List.mem_cons, not_or]
      exact ⟨fun same => differs same.symm, rest⟩

theorem contains_eq_false {root : Nat} {e : Entry α} (entry : f.entries[root]? = some e)
    (detached : e.parent = none) (shown : f.Shows parent h t) (differs : h ≠ root) :
    f.contains h root = .ok false := by
  obtain ⟨hs, here, -⟩ := shown.entry
  have missed := not_mem_looked entry detached f.size [h]
    (by simpa using ⟨differs, parent, t, shown⟩)
  simp [contains, differs, Forest.entry, here, Except.map, missed]

end Forest

end TurtleGraphics
