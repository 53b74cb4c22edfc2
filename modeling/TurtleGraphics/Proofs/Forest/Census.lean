import Mathlib.Data.List.Forall2
import TurtleGraphics.Proofs.Forest.Upkeep

/-!
The nodes of a tree in a sound forest are different nodes that all lie below its root. So a tree
that has as many nodes as the forest leaves none out.
-/

namespace TurtleGraphics.Forest

variable {α : Type} {f : Forest α}

def Lists (f : Forest α) (vs : List α) (hs : List Nat) : Prop :=
  List.Forall₂ (fun v h => f.value h = .ok v) vs hs

theorem Lists.perm {vs ws : List α} {hs : List Nat} (lists : f.Lists vs hs) (same : ws.Perm vs) :
    ∃ ks, f.Lists ws ks ∧ ks.Perm hs :=
  List.perm_comp_forall₂ same lists

theorem Lists.split {vs ws : List α} {hs : List Nat} (lists : f.Lists (vs ++ ws) hs) :
    ∃ ks ls, hs = ks ++ ls ∧ f.Lists vs ks ∧ f.Lists ws ls := by
  have first := List.forall₂_take vs.length lists
  have rest := List.forall₂_drop vs.length lists
  rw [List.take_left] at first
  rw [List.drop_left] at rest
  exact ⟨_, _, (List.take_append_drop vs.length hs).symm, first, rest⟩

theorem Lists.of_mem {vs : List α} {hs : List Nat} (lists : f.Lists vs hs) {h : Nat}
    (member : h ∈ hs) : ∃ v ∈ vs, f.value h = .ok v := by
  induction lists with
  | nil => cases member
  | cons holds _ ih =>
    rcases List.mem_cons.mp member with rfl | later
    · exact ⟨_, List.mem_cons_self, holds⟩
    · obtain ⟨v, among, held⟩ := ih later
      exact ⟨v, List.mem_cons_of_mem _ among, held⟩

/-- There is one way up, so nothing lies below two nodes that are apart. -/
theorem Apart.not_climbs_both {a b k : Nat} (apart : f.Apart a b) (first : f.Climbs k a) :
    ¬ f.Climbs k b := by
  intro second
  have unique : Relator.RightUnique fun c p => f.above c = some p := by
    intro c p q parent other
    exact Option.some.inj (parent.symm.trans other)
  rcases Relation.ReflTransGen.total_of_right_unique unique first second with up | up
  · exact apart.1 up
  · exact apart.2 up

mutual

/-- Handles of the nodes of a tree, each once and in the order of their values. -/
theorem Shows.nodes (sound : f.Sound) {parent : Option Nat} {h : Nat} {t : Tree α} :
    f.Shows parent h t →
      ∃ ks : List Nat, ks.Nodup ∧ f.Lists t.preorder ks ∧ ∀ k ∈ ks, f.Climbs k h
  | @Shows.node _ _ _ _ v hs ts entry below => by
    have children : f.below h = hs := below_of_entry entry
    have parents : ∀ c ∈ hs, f.above c = some h := by
      intro c child
      exact (sound.linked h c).mp (children ▸ child)
    have apart : hs.Pairwise f.Apart := by
      apply (children ▸ sound.nodup h).imp_of_mem
      intro c d first second differs
      exact sound.siblings_apart (parents c first) (parents d second) differs
    obtain ⟨ks, distinct, values, climbs⟩ := below.nodes sound apart
    refine ⟨h :: ks, List.nodup_cons.mpr ⟨?_, distinct⟩, ?_, ?_⟩
    · intro again
      obtain ⟨c, child, down⟩ := climbs h again
      exact sound.not_climbs_child (parents c child) down
    · have own : f.value h = .ok v := by simp [Forest.value, Forest.entry, entry, Except.map]
      exact .cons own values
    · intro k member
      rcases List.mem_cons.mp member with rfl | lower
      · exact .refl
      · obtain ⟨c, child, way⟩ := climbs k lower
        exact way.tail (parents c child)

theorem ShowsAll.nodes (sound : f.Sound) {parent : Nat} {hs : List Nat} {ts : List (Tree α)} :
    f.ShowsAll parent hs ts → hs.Pairwise f.Apart →
      ∃ ks : List Nat, ks.Nodup ∧ f.Lists (Tree.preorderAll ts) ks ∧
        ∀ k ∈ ks, ∃ h ∈ hs, f.Climbs k h
  | .nil, _ => ⟨[], List.nodup_nil, .nil, by simp⟩
  | .cons first rest, apart => by
    obtain ⟨away, others⟩ := List.pairwise_cons.mp apart
    obtain ⟨ks, distinct, values, climbs⟩ := first.nodes sound
    obtain ⟨ls, distinct', values', climbs'⟩ := rest.nodes sound others
    refine ⟨ks ++ ls, List.nodup_append.mpr ⟨distinct, distinct', ?_⟩, ?_, ?_⟩
    · rintro k member l later rfl
      obtain ⟨d, child, way⟩ := climbs' k later
      exact (away d child).not_climbs_both (climbs k member) way
    · exact List.rel_append values values'
    · intro k member
      rcases List.mem_append.mp member with here | later
      · exact ⟨_, List.mem_cons_self, climbs k here⟩
      · obtain ⟨d, child, way⟩ := climbs' k later
        exact ⟨d, List.mem_cons_of_mem _ child, way⟩

end

theorem lt_size_of_value {h : Nat} {v : α} (found : f.value h = .ok v) : h < f.size := by
  obtain ⟨e, entry, -⟩ := ok_of_map found
  exact (lt_size_of_entry entry).2

/-- A tree that is as large as the forest has all of its nodes. -/
theorem Sound.census (sound : f.Sound) {parent : Option Nat} {r : Nat} {t : Tree α}
    (shown : f.Shows parent r t) (all : f.size ≤ t.size) :
    ∃ ks : List Nat, ks.Perm (List.range f.size) ∧ f.Lists t.preorder ks ∧
      ∀ k ∈ ks, f.Climbs k r := by
  obtain ⟨ks, distinct, values, climbs⟩ := shown.nodes sound
  have inside : ks ⊆ List.range f.size := by
    intro k member
    rcases (climbs k member).cases_head with rfl | ⟨p, parent, -⟩
    · exact List.mem_range.mpr shown.lt_size
    · exact List.mem_range.mpr (lt_size_of_above parent)
  have enough : (List.range f.size).length ≤ ks.length := by
    rwa [← values.length_eq, Tree.length_preorder, List.length_range]
  exact ⟨ks, (distinct.subperm inside).perm_of_length_le enough, values, climbs⟩

end TurtleGraphics.Forest
