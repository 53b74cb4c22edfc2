import TurtleGraphics.Proofs.Grammar.Discipline

/-!
Trees on the stack are put together by their positions. That can be done just if the positions name
each of the entries on top once. Then one of these entries takes in the others, and nothing else
changes; if it cannot be done nothing changes at all.
-/

namespace TurtleGraphics.Grammar

structure Composable (s : State) (root : Nat) (children : List Nat) : Prop where
  enough : children.length + 1 ≤ s.stack.length
  once : (root :: children).Perm (List.range' 1 (children.length + 1))

structure Replaced (s s' : State) (root : Nat) (children : List Nat) (r : Nat) (cs : List Nat) :
    Prop where
  chosen : s.stack[root - 1]? = some r ∧ children.map (fun n => s.stack[n - 1]?) = cs.map some
  stack : s'.stack = r :: s.stack.drop (children.length + 1)
  feed : s'.feed = s.feed
  size : s'.forest.size = s.forest.size
  whole : ∃ v hs, s.forest.entries[r]? = some ⟨v, hs, none⟩ ∧
    s'.forest.entries[r]? = some ⟨v, hs ++ cs, none⟩
  parts : ∀ c ∈ cs, ∃ v hs, s.forest.entries[c]? = some ⟨v, hs, none⟩ ∧
    s'.forest.entries[c]? = some ⟨v, hs, some r⟩
  others : ∀ h, h ≠ r → h ∉ cs → s'.forest.entries[h]? = s.forest.entries[h]?

structure Composes (s : State) (root : Nat) (children : List Nat) : Prop where
  succeeds : (∃ s', s.attempt (.compose root children) = (.composed, s')) ↔
    Composable s root children
  replaces : ∀ s', s.attempt (.compose root children) = (.composed, s') →
    ∃ r cs, Replaced s s' root children r cs
  fails : ∀ a s', s.attempt (.compose root children) = (a, s') → a ≠ .composed →
    (∃ e, a = .failed e) ∧ s' = s

variable {s : State} {root : Nat} {children : List Nat}

theorem entry_of_isRoot {f : Forest Node} {h : Nat} (isRoot : f.IsRoot h) :
    ∃ v hs, f.entries[h]? = some ⟨v, hs, none⟩ := by
  obtain ⟨⟨v, hs, parent⟩, found⟩ := Forest.entry_of_lt isRoot.inside
  have entry := (Forest.lt_size_of_entry found).1
  have top := isRoot.top
  rw [Forest.above_of_entry entry] at top
  subst top
  exact ⟨v, hs, entry⟩

theorem Orderly.replaced (orderly : Orderly s []) (composable : Composable s root children) :
    ∃ s' r cs, Grammar.compose root children s = .ok () s' ∧ Replaced s s' root children r cs := by
  obtain ⟨r, cs, atRoot, atChildren, top, done⟩ :=
    orderly.compose_ok composable.enough composable.once
  have stacked : ∀ h ∈ r :: cs, s.forest.IsRoot h := by
    intro h member
    apply orderly.roots h
    simpa using List.mem_of_mem_take (top.mem_iff.mp member)
  have apart : r ∉ cs := by
    have distinct : s.stack.Nodup := by simpa using orderly.distinct
    exact (List.nodup_cons.mp (top.nodup_iff.mpr (distinct.sublist (List.take_sublist _ _)))).1
  have entries := Forest.entries_appendAll s.forest r cs
  refine ⟨_, r, cs, done, ⟨atRoot, atChildren⟩, rfl, rfl, Forest.size_appendAll _ _ _, ?_, ?_, ?_⟩
  · obtain ⟨v, hs, entry⟩ := entry_of_isRoot (stacked r (by simp))
    exact ⟨v, hs, entry, by simp [entries, entry, apart]⟩
  · intro c member
    obtain ⟨v, hs, entry⟩ := entry_of_isRoot (stacked c (by simp [member]))
    have other : c ≠ r := fun same => apart (same ▸ member)
    exact ⟨v, hs, entry, by simp [entries, entry, other, member]⟩
  · intro h notRoot notChild
    exact Forest.entries_appendAll_other notRoot notChild

theorem error_of_not_composable (not : ¬ Composable s root children) :
    ∃ e, compose root children s = .error e s := by
  by_cases shallow : s.stack.length < children.length + 1
  · exact ⟨_, compose_shallow shallow⟩
  · have enough := Nat.not_lt.mp shallow
    have bad : ¬ (root :: children).Perm (List.range' 1 (children.length + 1)) :=
      fun once => not ⟨enough, once⟩
    exact ⟨_, compose_badPositions enough bad⟩

theorem Orderly.composes (orderly : Orderly s []) (root : Nat) (children : List Nat) :
    Composes s root children := by
  by_cases composable : Composable s root children
  · obtain ⟨s1, r, cs, done, replaced⟩ := orderly.replaced composable
    have came : s.attempt (.compose root children) = (.composed, s1) := answered_ok done _
    constructor
    · exact ⟨fun _ => composable, fun _ => ⟨s1, came⟩⟩
    · intro s' again
      rw [came] at again
      cases again
      exact ⟨r, cs, replaced⟩
    · intro a s' other differs
      rw [came] at other
      cases other
      exact absurd rfl differs
  · obtain ⟨e, done⟩ := error_of_not_composable composable
    have came : s.attempt (.compose root children) = (.failed e, s) := answered_error done _
    constructor
    · refine ⟨?_, fun can => absurd can composable⟩
      rintro ⟨s', other⟩
      rw [came] at other
      cases other
    · intro s' other
      rw [came] at other
      cases other
    · intro a s' again _
      rw [came] at again
      cases again
      exact ⟨⟨e, rfl⟩, rfl⟩

/-- Whatever was tried on whatever text. -/
theorem after_composes (source : String) (attempts : List Attempt) (root : Nat)
    (children : List Nat) : Composes ((State.ofSource source).after attempts) root children :=
  (orderly_after (orderly_ofSource source) attempts).composes root children

end TurtleGraphics.Grammar
