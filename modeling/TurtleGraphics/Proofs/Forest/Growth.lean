import TurtleGraphics.Proofs.Forest.Shape

/-!
How a forest grows while trees are put together in it: some roots are made, nothing made before
changes, and there is no node besides those of the new trees.
-/

namespace TurtleGraphics.Forest

variable {α : Type}

structure Grown (f g : Forest α) (made : List (Nat × Tree α)) : Prop where
  kept : ∀ h < f.size, g.entries[h]? = f.entries[h]?
  size : g.size = f.size + Tree.sizeAll (made.map Prod.snd)
  fresh : ∀ x ∈ made, f.size ≤ x.1
  shows : ∀ x ∈ made, g.Shows none x.1 x.2
  nodup : (made.map Prod.fst).Nodup

variable {f g k : Forest α} {xs ys : List (Nat × Tree α)}

namespace Grown

theorem refl (f : Forest α) : Grown f f [] where
  kept _ _ := rfl
  size := by simp [Tree.sizeAll]
  fresh := by simp
  shows := by simp
  nodup := by simp

theorem tree_eq {h : Nat} {t : Tree α} (grown : Grown f g [(h, t)]) : g.tree h = .ok t := by
  have shown : g.Shows none h t := grown.shows (h, t) (by simp)
  have size := grown.size
  simp only [List.map_cons, List.map_nil, Tree.sizeAll] at size
  exact shown.tree (by omega)

theorem perm (grown : Grown f g xs) (same : xs.Perm ys) : Grown f g ys where
  kept := grown.kept
  size := by rw [grown.size, Tree.sizeAll_perm (same.map Prod.snd)]
  fresh x member := grown.fresh x (same.mem_iff.mpr member)
  shows x member := grown.shows x (same.mem_iff.mpr member)
  nodup := (same.map Prod.fst).nodup_iff.mp grown.nodup

theorem size_le (grown : Grown f g xs) : f.size ≤ g.size := by
  have size := grown.size
  omega

theorem keeps (grown : Grown f g xs) : f.Keeps g := by
  intro h e entry _
  rw [grown.kept h (Array.getElem?_eq_some_iff.mp entry).1]
  exact entry

theorem trans (left : Grown f g xs) (right : Grown g k ys) : Grown f k (ys ++ xs) where
  kept h small := by
    have more := left.size_le
    rw [right.kept h (by omega), left.kept h small]
  size := by
    rw [right.size, left.size, List.map_append, Tree.sizeAll_append]
    omega
  fresh x member := by
    have more := left.size_le
    rcases List.mem_append.mp member with later | earlier
    · have := right.fresh x later
      omega
    · exact left.fresh x earlier
  shows x member := by
    rcases List.mem_append.mp member with later | earlier
    · exact right.shows x later
    · have shown := left.shows x earlier
      exact shown.transfer right.keeps (right.kept _ shown.lt_size)
  nodup := by
    rw [List.map_append, List.nodup_append]
    refine ⟨right.nodup, left.nodup, ?_⟩
    intro a later b earlier same
    obtain ⟨x, inYs, rfl⟩ := List.mem_map.mp later
    obtain ⟨y, inXs, rfl⟩ := List.mem_map.mp earlier
    have low := (left.shows y inXs).lt_size
    have high := right.fresh x inYs
    omega

end Grown

theorem grown_leaf (f : Forest α) (v : α) :
    Grown f (f.leaf v).2 [((f.leaf v).1, .node v [])] where
  kept h small := by
    have differs : h ≠ f.entries.size := by
      change h < f.entries.size at small
      omega
    simp [leaf, Array.getElem?_push, differs]
  size := by simp [leaf, Forest.size, Tree.size, Tree.sizeAll]
  fresh := by simp [leaf]
  shows x member := by
    obtain rfl := List.mem_singleton.mp member
    exact .node (by simp [leaf, Forest.size]) .nil
  nodup := by simp

/-- What a link does to each node of a forest. -/
theorem entries_link (f : Forest α) (p c : Nat) (place : List Nat → List Nat) (h : Nat) :
    (f.link p c place).entries[h]? = f.entries[h]?.map fun e =>
      ⟨e.value, if h = p then place e.children else e.children,
        if h = c then some p else e.parent⟩ := by
  simp only [link, Array.getElem?_modify]
  cases f.entries[h]? with
  | none => simp
  | some e =>
    by_cases parent : p = h <;> by_cases child : c = h <;>
      simp [parent, child, eq_comm]

theorem size_link (f : Forest α) (p c : Nat) (place : List Nat → List Nat) :
    (f.link p c place).size = f.size := by
  simp [link, Forest.size]

theorem entries_append (f : Forest α) (p c h : Nat) :
    (f.append p c).entries[h]? = f.entries[h]?.map fun e =>
      ⟨e.value, if h = p then e.children ++ [c] else e.children,
        if h = c then some p else e.parent⟩ :=
  entries_link f p c (· ++ [c]) h

/-- What attaching nodes does to each node of a forest. -/
theorem entries_appendAll (f : Forest α) (p : Nat) (cs : List Nat) (h : Nat) :
    (f.appendAll p cs).entries[h]? = f.entries[h]?.map fun e =>
      ⟨e.value, if h = p then e.children ++ cs else e.children,
        if h ∈ cs then some p else e.parent⟩ := by
  induction cs generalizing f with
  | nil => simp [appendAll]
  | cons c cs ih =>
    change ((f.append p c).appendAll p cs).entries[h]? = _
    rw [ih, entries_append]
    cases f.entries[h]? with
    | none => rfl
    | some e => grind

theorem size_appendAll (f : Forest α) (p : Nat) (cs : List Nat) :
    (f.appendAll p cs).size = f.size := by
  induction cs generalizing f with
  | nil => rfl
  | cons c cs ih =>
    change ((f.append p c).appendAll p cs).size = _
    rw [ih]
    exact size_link f p c (· ++ [c])

theorem Grown.appendAll {r : Nat} {v : α} {ts : List (Tree α)} {cs others : List (Nat × Tree α)}
    (grown : Grown f g ((r, .node v ts) :: (cs ++ others))) :
    Grown f (g.appendAll r (cs.map Prod.fst))
      ((r, .node v (ts ++ cs.map Prod.snd)) :: others) := by
  have entries := entries_appendAll g r (cs.map Prod.fst)
  have nodup := grown.nodup
  simp only [List.map_cons, List.nodup_cons, List.map_append, List.nodup_append,
    List.mem_append, not_or] at nodup
  obtain ⟨⟨notChild, notOther⟩, -, distinct, apart⟩ := nodup
  have root := grown.shows (r, .node v ts) (by simp)
  have shown (c : Nat × Tree α) (member : c ∈ cs) : g.Shows none c.1 c.2 :=
    grown.shows c (by simp [member])
  have unlinked (h : Nat) (differs : h ≠ r) (loose : h ∉ cs.map Prod.fst) :
      (g.appendAll r (cs.map Prod.fst)).entries[h]? = g.entries[h]? := by
    rw [entries]
    cases g.entries[h]? with
    | none => rfl
    | some e => simp only [Option.map_some, if_neg differs, if_neg loose]
  have keeps : g.Keeps (g.appendAll r (cs.map Prod.fst)) := by
    intro h e entry attached
    rw [unlinked h, entry]
    · rintro rfl
      obtain ⟨hs, same, -⟩ := root.entry
      rw [entry] at same
      cases same
      exact attached rfl
    · intro child
      obtain ⟨c, member, rfl⟩ := List.mem_map.mp child
      obtain ⟨hs, same, -⟩ := (shown c member).entry
      rw [entry] at same
      cases same
      exact attached rfl
  have attached (c : Nat × Tree α) (member : c ∈ cs) :
      (g.appendAll r (cs.map Prod.fst)).Shows (some r) c.1 c.2 := by
    have child : c.1 ∈ cs.map Prod.fst := List.mem_map_of_mem member
    have differs : c.1 ≠ r := by
      intro same
      rw [same] at child
      exact notChild child
    obtain ⟨h, t⟩ := c
    cases shown (h, t) member with
    | node entry below =>
      refine .node ?_ (below.transfer keeps)
      rw [entries, entry]
      simp [differs, child]
  have attachedAll (ds : List (Nat × Tree α)) (part : ∀ d ∈ ds, d ∈ cs) :
      (g.appendAll r (cs.map Prod.fst)).ShowsAll r (ds.map Prod.fst) (ds.map Prod.snd) := by
    induction ds with
    | nil => exact .nil
    | cons d ds ih =>
      exact .cons (attached d (part d (by simp))) (ih fun x member => part x (by simp [member]))
  refine ⟨?_, ?_, ?_, ?_, ?_⟩
  · intro h small
    rw [unlinked h, grown.kept h small]
    · have := grown.fresh (r, .node v ts) (by simp)
      omega
    · intro child
      obtain ⟨c, member, rfl⟩ := List.mem_map.mp child
      have := grown.fresh c (by simp [member])
      omega
  · have size := grown.size
    simp only [List.map_cons, List.map_append, Tree.sizeAll, Tree.size, Tree.sizeAll_append]
      at size ⊢
    rw [size_appendAll]
    omega
  · intro x member
    rcases List.mem_cons.mp member with rfl | other
    · exact grown.fresh (r, .node v ts) (by simp)
    · exact grown.fresh x (by simp [other])
  · intro x member
    rcases List.mem_cons.mp member with rfl | other
    · cases root with
      | node entry below =>
        refine .node ?_ ((below.transfer keeps).append (attachedAll cs fun _ same => same))
        rw [entries, entry]
        simp [notChild]
    · have differs : x.1 ≠ r := by
        intro same
        exact notOther (same ▸ List.mem_map_of_mem other)
      have loose : x.1 ∉ cs.map Prod.fst := by
        intro child
        exact apart _ child _ (List.mem_map_of_mem other) rfl
      exact (grown.shows x (by simp [other])).transfer keeps (unlinked x.1 differs loose)
  · simp only [List.map_cons, List.nodup_cons]
    exact ⟨notOther, distinct⟩

/-- Different roots may be attached, to a node yet to be made or to another root. -/
theorem checkChildren_eq_ok {parent : Option Nat} {cs : List (Nat × Tree α)} {earlier : List Nat}
    (shown : ∀ c ∈ cs, f.Shows none c.1 c.2) (nodup : (cs.map Prod.fst).Nodup)
    (new : ∀ c ∈ cs, c.1 ∉ earlier)
    (root : ∀ p, parent = some p → p ∉ cs.map Prod.fst ∧
      ∃ e, f.entries[p]? = some e ∧ e.parent = none) :
    f.checkChildren parent earlier (cs.map Prod.fst) = .ok () := by
  induction cs generalizing earlier with
  | nil => rfl
  | cons c cs ih =>
    simp only [List.map_cons, List.nodup_cons] at nodup
    have first : f.checkChild parent earlier c.1 = .ok () := by
      obtain ⟨hs, entry, -⟩ := (shown c (by simp)).entry
      have here : f.entry c.1 = .ok ⟨c.2.value, hs, none⟩ := by simp [Forest.entry, entry]
      have unused : earlier.contains c.1 = false := by simpa using new c (by simp)
      cases parent with
      | none =>
        simp only [checkChild, here, bind, Except.bind, unused]
        rfl
      | some p =>
        obtain ⟨notChild, e, there, detached⟩ := root p rfl
        have differs : c.1 ≠ p := by
          rintro rfl
          exact notChild (by simp)
        have clear := contains_eq_false there detached (shown c (by simp)) differs
        simp only [checkChild, clear, here, bind, Except.bind, unused]
        rfl
    have rest : f.checkChildren parent (c.1 :: earlier) (cs.map Prod.fst) = .ok () :=
      ih (fun x member => shown x (by simp [member])) nodup.2
      (by
        intro x member
        rw [List.mem_cons, not_or]
        refine ⟨?_, new x (by simp [member])⟩
        intro same
        exact nodup.1 (same ▸ List.mem_map_of_mem member))
      (by
        intro p same
        obtain ⟨notChild, there⟩ := root p same
        exact ⟨fun later => notChild (by simp [later]), there⟩)
    simp only [List.map_cons, checkChildren, first]
    exact rest

theorem Grown.addChildren {r : Nat} {v : α} {ts : List (Tree α)} {cs others : List (Nat × Tree α)}
    (grown : Grown f g ((r, .node v ts) :: (cs ++ others))) :
    ∃ k, g.addChildren r (cs.map Prod.fst) = .ok k ∧
      Grown f k ((r, .node v (ts ++ cs.map Prod.snd)) :: others) := by
  have nodup := grown.nodup
  simp only [List.map_cons, List.nodup_cons, List.map_append, List.nodup_append,
    List.mem_append, not_or] at nodup
  obtain ⟨⟨notChild, -⟩, distinct, -⟩ := nodup
  obtain ⟨hs, entry, -⟩ := (grown.shows (r, .node v ts) (by simp)).entry
  have here : g.entry r = .ok ⟨v, hs, none⟩ := by
    simp only [Forest.entry, entry]
    rfl
  have checked : g.checkChildren (some r) [] (cs.map Prod.fst) = .ok () :=
    checkChildren_eq_ok (fun c member => grown.shows c (by simp [member])) distinct (by simp)
      (by
        rintro p same
        cases same
        exact ⟨notChild, _, entry, rfl⟩)
  refine ⟨g.appendAll r (cs.map Prod.fst), ?_, grown.appendAll⟩
  simp only [Forest.addChildren, checked, here, bind, Except.bind]
  cases cs <;> rfl

theorem Grown.node (v : α) {cs others : List (Nat × Tree α)} (grown : Grown f g (cs ++ others)) :
    ∃ h k, g.node v (cs.map Prod.fst) = .ok (h, k) ∧
      Grown f k ((h, .node v (cs.map Prod.snd)) :: others) := by
  have nodup := grown.nodup
  rw [List.map_append, List.nodup_append] at nodup
  have checked : g.checkChildren none [] (cs.map Prod.fst) = .ok () :=
    checkChildren_eq_ok (fun c member => grown.shows c (by simp [member])) nodup.1 (by simp)
      (by simp)
  have made : Grown f (g.leaf v).2 (((g.leaf v).1, .node v []) :: (cs ++ others)) :=
    grown.trans (grown_leaf g v)
  refine ⟨(g.leaf v).1, _, ?_, made.appendAll⟩
  simp only [Forest.node, checked, bind, Except.bind]
  rfl

end TurtleGraphics.Forest
