import Mathlib.Data.Finset.Card
import Mathlib.Data.Finset.Range
import Mathlib.Logic.Relation
import TurtleGraphics.Forest.Edit

/-!
Ancestry in a forest. A link is noted twice, by the parent and by the child. A forest is sound when
the two notes agree and every way up ends; there the search downwards finds everything that lies
below a node.
-/

namespace TurtleGraphics.Forest

variable {α : Type} {f : Forest α}

def above (f : Forest α) (h : Nat) : Option Nat :=
  (f.entries[h]?).bind (·.parent)

/-- Going up from `h`, by no link or more, leads to `a`. -/
def Climbs (f : Forest α) (h a : Nat) : Prop :=
  Relation.ReflTransGen (fun c p => f.above c = some p) h a

def Ancestor (f : Forest α) (a h : Nat) : Prop :=
  Relation.TransGen (fun c p => f.above c = some p) h a

structure Sound (f : Forest α) : Prop where
  linked : ∀ p c, c ∈ f.below p ↔ f.above c = some p
  nodup : ∀ p, (f.below p).Nodup
  grounded : ∀ h, Acc (fun p c => f.above c = some p) h

theorem above_of_entry {h : Nat} {e : Entry α} (entry : f.entries[h]? = some e) :
    f.above h = e.parent := by
  simp [above, entry]

theorem below_of_entry {h : Nat} {e : Entry α} (entry : f.entries[h]? = some e) :
    f.below h = e.children := by
  simp [below, entry]

theorem lt_size_of_above {c p : Nat} (h : f.above c = some p) : c < f.size := by
  obtain ⟨e, entry, -⟩ := Option.bind_eq_some_iff.mp h
  exact (Array.getElem?_eq_some_iff.mp entry).1

theorem lt_size_of_below {c p : Nat} (h : c ∈ f.below p) : p < f.size := by
  cases entry : f.entries[p]? with
  | none => simp [below, entry] at h
  | some e => exact (Array.getElem?_eq_some_iff.mp entry).1

theorem Climbs.of_above {c p : Nat} (h : f.above c = some p) : f.Climbs c p :=
  .single h

theorem Climbs.ancestor {h p a : Nat} (first : f.above h = some p) (rest : f.Climbs p a) :
    f.Ancestor a h :=
  .head' first rest

/-- A node without a parent is as far up as it gets. -/
theorem Climbs.eq_of_root {h a : Nat} (climbs : f.Climbs h a) (root : f.above h = none) :
    a = h := by
  cases Relation.ReflTransGen.cases_head climbs with
  | inl same => exact same.symm
  | inr up =>
    obtain ⟨p, first, -⟩ := up
    rw [root] at first
    cases first

/-- What lies below a node is the node itself or lies below one of its children. -/
theorem Climbs.through_child (sound : f.Sound) {h a : Nat} (climbs : f.Climbs h a)
    (differs : h ≠ a) : ∃ c ∈ f.below a, f.Climbs h c := by
  cases Relation.ReflTransGen.cases_tail climbs with
  | inl same => exact absurd same.symm differs
  | inr up =>
    obtain ⟨c, way, last⟩ := up
    exact ⟨c, (sound.linked a c).mpr last, way⟩

/-- There is one way up, so of two nodes on it one is reached from the other. -/
theorem Climbs.of_above_ne {c p a : Nat} (climbs : f.Climbs c a) (parent : f.above c = some p)
    (differs : c ≠ a) : f.Climbs p a := by
  cases Relation.ReflTransGen.cases_head climbs with
  | inl same => exact absurd same differs
  | inr up =>
    obtain ⟨q, first, rest⟩ := up
    have same : p = q := Option.some.inj (parent.symm.trans first)
    exact same ▸ rest

namespace Sound

theorem parent_lt (sound : f.Sound) {c p : Nat} (h : f.above c = some p) : p < f.size :=
  lt_size_of_below ((sound.linked p c).mpr h)

theorem not_ancestor_self (sound : f.Sound) (h : Nat) : ¬ f.Ancestor h h := by
  induction sound.grounded h with
  | intro h _ ih =>
    intro cycle
    obtain ⟨p, first, rest⟩ := Relation.TransGen.head'_iff.mp cycle
    have again : f.Ancestor p p := Relation.TransGen.tail' rest first
    exact ih p first again

theorem not_climbs_child (sound : f.Sound) {c p : Nat} (h : f.above c = some p) :
    ¬ f.Climbs p c := by
  intro down
  exact sound.not_ancestor_self c (down.ancestor h)

theorem climbs_root (sound : f.Sound) (h : Nat) : ∃ r, f.Climbs h r ∧ f.above r = none := by
  induction sound.grounded h with
  | intro h _ ih =>
    cases parent : f.above h with
    | none => exact ⟨h, .refl, parent⟩
    | some p =>
      obtain ⟨r, rest, root⟩ := ih p parent
      exact ⟨r, .head parent rest, root⟩

end Sound

def Apart (f : Forest α) (a b : Nat) : Prop :=
  ¬ f.Climbs a b ∧ ¬ f.Climbs b a

theorem Apart.child {h w c : Nat} (apart : f.Apart h w) (parent : f.above c = some h) :
    f.Apart c w := by
  constructor
  · intro climbs
    by_cases same : c = w
    · exact apart.2 (.of_above (same ▸ parent))
    · exact apart.1 (climbs.of_above_ne parent same)
  · intro climbs
    exact apart.2 (climbs.tail parent)

theorem Sound.siblings_apart (sound : f.Sound) {h c d : Nat} (first : f.above c = some h)
    (second : f.above d = some h) (differs : c ≠ d) : f.Apart c d := by
  constructor
  · intro climbs
    exact sound.not_climbs_child second (climbs.of_above_ne first differs)
  · intro climbs
    exact sound.not_climbs_child first (climbs.of_above_ne second differs.symm)

structure Searching (f : Forest α) (steps : Nat) (seen : Finset Nat) (waiting : List Nat) :
    Prop where
  inside : ∀ w ∈ waiting, w < f.size
  apart : waiting.Pairwise f.Apart
  past : ∀ s ∈ seen, ∀ w ∈ waiting, ¬ f.Climbs s w
  bounded : seen ⊆ Finset.range f.size
  enough : f.size ≤ seen.card + steps

theorem Searching.start {root : Nat} (inside : root < f.size) :
    f.Searching f.size ∅ [root] where
  inside := by simpa using inside
  apart := List.pairwise_singleton _ _
  past := by simp
  bounded := by simp
  enough := by simp

theorem Searching.step (sound : f.Sound) {steps h : Nat} {seen : Finset Nat} {waiting : List Nat}
    (search : f.Searching (steps + 1) seen (h :: waiting)) :
    f.Searching steps (insert h seen) (f.below h ++ waiting) := by
  have apart := List.pairwise_cons.mp search.apart
  have parent (c : Nat) (child : c ∈ f.below h) : f.above c = some h := (sound.linked h c).mp child
  have unseen : h ∉ seen := fun member => search.past h member h (by simp) .refl
  constructor
  · intro w member
    rcases List.mem_append.mp member with child | later
    · exact lt_size_of_above (parent w child)
    · exact search.inside w (by simp [later])
  · rw [List.pairwise_append]
    refine ⟨?_, apart.2, ?_⟩
    · apply (sound.nodup h).imp_of_mem
      intro c d first second differs
      exact sound.siblings_apart (parent c first) (parent d second) differs
    · intro c child w later
      exact (apart.1 w later).child (parent c child)
  · intro s member w waits climbs
    rcases Finset.mem_insert.mp member with rfl | earlier
    · rcases List.mem_append.mp waits with child | later
      · exact sound.not_climbs_child (parent w child) climbs
      · exact (apart.1 w later).1 climbs
    · rcases List.mem_append.mp waits with child | later
      · exact search.past s earlier h (by simp) (climbs.tail (parent w child))
      · exact search.past s earlier w (by simp [later]) climbs
  · intro s member
    rcases Finset.mem_insert.mp member with rfl | earlier
    · exact Finset.mem_range.mpr (search.inside s (by simp))
    · exact search.bounded earlier
  · have enough := search.enough
    rw [Finset.card_insert_of_notMem unseen]
    omega

/-- When no step is left every node has been seen. -/
theorem Searching.waiting_eq_nil {seen : Finset Nat} {waiting : List Nat}
    (search : f.Searching 0 seen waiting) : waiting = [] := by
  have all : seen = Finset.range f.size := by
    apply Finset.eq_of_subset_of_card_le search.bounded
    simpa using search.enough
  cases waiting with
  | nil => rfl
  | cons w rest =>
    have member : w ∈ seen := by simpa [all] using search.inside w (by simp)
    exact absurd .refl (search.past w member w (by simp))

theorem Searching.mem_looked (sound : f.Sound) {steps target w : Nat} {seen : Finset Nat}
    {waiting : List Nat} (search : f.Searching steps seen waiting) (waits : w ∈ waiting)
    (climbs : f.Climbs target w) : target ∈ f.looked target steps waiting := by
  induction steps generalizing seen waiting w with
  | zero =>
    rw [search.waiting_eq_nil] at waits
    cases waits
  | succ steps ih =>
    cases waiting with
    | nil => cases waits
    | cons h waiting =>
      unfold looked
      by_cases found : h = target
      · simp [found]
      · rw [if_neg found]
        have further : ∃ x ∈ f.below h ++ waiting, f.Climbs target x := by
          rcases List.mem_cons.mp waits with rfl | later
          · obtain ⟨c, child, way⟩ := climbs.through_child sound (Ne.symm found)
            exact ⟨c, by simp [child], way⟩
          · exact ⟨w, by simp [later], climbs⟩
        obtain ⟨x, waits, way⟩ := further
        exact List.mem_cons_of_mem h (ih (search.step sound) waits way)

theorem entry_of_lt {h : Nat} (inside : h < f.size) : ∃ e, f.entry h = .ok e := by
  have there : f.entries[h]? = some f.entries[h] := Array.getElem?_eq_getElem inside
  exact ⟨f.entries[h], by simp [entry, there]⟩

/-- A search comes upon nothing but what lies below the nodes it starts from. -/
theorem climbs_of_mem_looked (sound : f.Sound) {target steps x : Nat} {waiting : List Nat}
    (found : x ∈ f.looked target steps waiting) : ∃ w ∈ waiting, f.Climbs x w := by
  induction steps generalizing waiting with
  | zero => cases waiting <;> cases found
  | succ steps ih =>
    cases waiting with
    | nil => cases found
    | cons h waiting =>
      unfold looked at found
      split at found
      · obtain rfl := List.mem_singleton.mp found
        exact ⟨x, by simp, .refl⟩
      · rcases List.mem_cons.mp found with rfl | later
        · exact ⟨x, by simp, .refl⟩
        · obtain ⟨w, waits, way⟩ := ih later
          rcases List.mem_append.mp waits with child | other
          · have parent : f.above w = some h := (sound.linked h w).mp child
            exact ⟨h, by simp, way.tail parent⟩
          · exact ⟨w, by simp [other], way⟩

/-- The search from a node that is there comes to an answer, and to the right one. -/
theorem Sound.contains_eq (sound : f.Sound) {root : Nat} (inside : root < f.size) (node : Nat) :
    ∃ found, f.contains root node = .ok found ∧ (found = true ↔ f.Climbs node root) := by
  by_cases same : root = node
  · subst same
    exact ⟨true, by simp [contains], by simp [Climbs, Relation.ReflTransGen.refl]⟩
  · obtain ⟨e, here⟩ := entry_of_lt inside
    refine ⟨(f.looked node f.size [root]).contains node, ?_, ?_⟩
    · simp [contains, same, here, Except.map]
    · rw [List.contains_iff_mem]
      constructor
      · intro found
        obtain ⟨w, waits, way⟩ := climbs_of_mem_looked sound found
        exact List.mem_singleton.mp waits ▸ way
      · exact (Searching.start inside).mem_looked sound (by simp)

/-- A search that misses a node shows that it does not lie below. -/
theorem Sound.not_climbs_of_contains (sound : f.Sound) {root node : Nat}
    (missed : f.contains root node = .ok false) : ¬ f.Climbs node root := by
  by_cases inside : root < f.size
  · obtain ⟨found, answer, right⟩ := sound.contains_eq inside node
    rw [missed] at answer
    cases answer
    simpa using right
  · have out : f.entries[root]? = none := Array.getElem?_eq_none (Nat.not_lt.mp inside)
    unfold contains at missed
    split at missed
    · cases missed
    · simp [entry, out, Except.map] at missed

end TurtleGraphics.Forest
