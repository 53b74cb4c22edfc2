import TurtleGraphics.Proofs.Forest.Refusal

/-!
Roots of a sound forest. Different roots can always be put under another root, or under a node that
is yet to be made; the nodes that take no part in it stay as they are. Below every node there is a
tree.
-/

namespace TurtleGraphics.Forest

variable {α : Type} {f : Forest α}

structure IsRoot (f : Forest α) (h : Nat) : Prop where
  inside : h < f.size
  top : f.above h = none

theorem Sound.checkChildren_roots (sound : f.Sound) {parent : Option Nat} {cs : List Nat}
    (roots : ∀ c ∈ cs, f.IsRoot c) (distinct : cs.Nodup)
    (under : ∀ p, parent = some p → f.IsRoot p ∧ p ∉ cs) :
    f.checkChildren parent [] cs = .ok () := by
  rw [sound.checkChildren_eq_ok_iff fun c member => (roots c member).inside]
  refine ⟨⟨distinct, fun c member => (roots c member).top, ?_⟩, by simp⟩
  intro c member p same way
  obtain ⟨root, apart⟩ := under p same
  exact apart (way.eq_of_root root.top ▸ member)

theorem Sound.addChildren_roots (sound : f.Sound) {p : Nat} {cs : List Nat} (parent : f.IsRoot p)
    (roots : ∀ c ∈ cs, f.IsRoot c) (distinct : (p :: cs).Nodup) :
    f.addChildren p cs = .ok (f.appendAll p cs) := by
  obtain ⟨apart, distinct⟩ := List.nodup_cons.mp distinct
  have checked : f.checkChildren (some p) [] cs = .ok () := by
    apply sound.checkChildren_roots roots distinct
    rintro q same
    cases same
    exact ⟨parent, apart⟩
  obtain ⟨e, here⟩ := entry_of_lt parent.inside
  simp only [Forest.addChildren, checked, here, bind, Except.bind]
  cases cs <;> rfl

theorem Sound.node_roots (sound : f.Sound) (v : α) {cs : List Nat} (roots : ∀ c ∈ cs, f.IsRoot c)
    (distinct : cs.Nodup) :
    f.node v cs = .ok (f.size, (f.leaf v).2.appendAll f.size cs) := by
  have checked : f.checkChildren none [] cs = .ok () :=
    sound.checkChildren_roots roots distinct (by simp)
  simp only [Forest.node, checked, bind, Except.bind]
  rfl

theorem entries_leaf {v : α} {h : Nat} (old : h < f.size) :
    (f.leaf v).2.entries[h]? = f.entries[h]? := by
  have differs : h ≠ f.entries.size := Nat.ne_of_lt old
  simp [Forest.leaf, Array.getElem?_push, differs]

theorem size_leaf (f : Forest α) (v : α) : (f.leaf v).2.size = f.size + 1 := by
  simp [Forest.leaf, Forest.size]

theorem entries_appendAll_other {p h : Nat} {cs : List Nat} (notParent : h ≠ p)
    (notChild : h ∉ cs) : (f.appendAll p cs).entries[h]? = f.entries[h]? := by
  rw [entries_appendAll]
  cases f.entries[h]? with
  | none => rfl
  | some e => simp [notParent, notChild]

theorem IsRoot.leaf {h : Nat} (root : f.IsRoot h) (v : α) : (f.leaf v).2.IsRoot h where
  inside := by
    rw [size_leaf]
    exact Nat.lt_succ_of_lt root.inside
  top := by
    rw [above_leaf]
    exact root.top

theorem isRoot_leaf (f : Forest α) (v : α) : (f.leaf v).2.IsRoot f.size where
  inside := by
    rw [size_leaf]
    exact Nat.lt_succ_self f.size
  top := by simp [above, Forest.leaf, Forest.size]

/-- A root that is not attached is still one, even if other nodes are attached to it. -/
theorem IsRoot.appendAll {p h : Nat} {cs : List Nat} (root : f.IsRoot h) (loose : h ∉ cs) :
    (f.appendAll p cs).IsRoot h where
  inside := by
    rw [size_appendAll]
    exact root.inside
  top := by
    have top := root.top
    simp only [above, entries_appendAll] at top ⊢
    cases entry : f.entries[h]? with
    | none => rfl
    | some e =>
      simp only [entry, Option.bind_some] at top
      simp [loose, top]

theorem mapM_ok {β : Type} {g : Nat → Except Error β} {hs : List Nat}
    (each : ∀ h ∈ hs, ∃ b, g h = .ok b) : ∃ bs, hs.mapM g = .ok bs := by
  induction hs with
  | nil => exact ⟨[], rfl⟩
  | cons h hs ih =>
    obtain ⟨b, first⟩ := each h (by simp)
    obtain ⟨bs, rest⟩ := ih fun k member => each k (by simp [member])
    exact ⟨b :: bs, by rw [List.mapM_cons, first, rest]; rfl⟩

/-- The nodes passed on the way down are all above the node that is reached, so a way down is no
longer than there are nodes. -/
theorem Sound.exists_treeWithin (sound : f.Sound) {passed : Finset Nat} {depth h : Nat}
    (inside : h < f.size) (nodes : passed ⊆ Finset.range f.size)
    (way : ∀ a ∈ passed, f.Ancestor a h) (enough : f.size ≤ passed.card + depth) :
    ∃ t, f.treeWithin depth h = .ok t := by
  have fresh : h ∉ passed := fun member => sound.not_ancestor_self h (way h member)
  have longer : insert h passed ⊆ Finset.range f.size := by
    intro a member
    rcases Finset.mem_insert.mp member with rfl | old
    · exact Finset.mem_range.mpr inside
    · exact nodes old
  have room : passed.card + 1 ≤ f.size := by
    rw [← Finset.card_insert_of_notMem fresh, ← Finset.card_range f.size]
    exact Finset.card_le_card longer
  induction depth generalizing passed h with
  | zero => omega
  | succ depth ih =>
    obtain ⟨e, here⟩ := entry_of_lt inside
    have below : ∀ c ∈ e.children, ∃ t, f.treeWithin depth c = .ok t := by
      intro c child
      have parent : f.above c = some h := by
        rw [← sound.linked, below_of_entry (lt_size_of_entry here).1]
        exact child
      have above : ∀ a ∈ insert h passed, f.Ancestor a c := by
        intro a member
        rcases Finset.mem_insert.mp member with rfl | old
        · exact .single parent
        · exact .head parent (way a old)
      have fresh' : c ∉ insert h passed :=
        fun member => sound.not_ancestor_self c (above c member)
      have inside' : c < f.size := lt_size_of_above parent
      have longer' : insert c (insert h passed) ⊆ Finset.range f.size := by
        intro a member
        rcases Finset.mem_insert.mp member with rfl | old
        · exact Finset.mem_range.mpr inside'
        · exact longer old
      have card := Finset.card_insert_of_notMem fresh
      have room' : (insert h passed).card + 1 ≤ f.size := by
        rw [← Finset.card_insert_of_notMem fresh', ← Finset.card_range f.size]
        exact Finset.card_le_card longer'
      exact ih inside' longer above (by omega) fresh' longer' room'
    obtain ⟨ts, trees⟩ := mapM_ok below
    exact ⟨.node e.value ts, by simp only [treeWithin, here, bind, Except.bind, trees]; rfl⟩

theorem Sound.exists_tree (sound : f.Sound) {h : Nat} (inside : h < f.size) :
    ∃ t, f.tree h = .ok t := by
  have none_passed : ∀ a ∈ (∅ : Finset Nat), f.Ancestor a h := by simp
  exact sound.exists_treeWithin inside (Finset.empty_subset _) none_passed (by simp)

end TurtleGraphics.Forest
