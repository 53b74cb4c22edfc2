import Mathlib.Data.List.Perm.Basic
import TurtleGraphics.Proofs.Forest.Ancestry
import TurtleGraphics.Proofs.Forest.Growth
import TurtleGraphics.Proofs.Results

/-!
Every edit keeps a forest sound, also one that is refused. So whatever edits are made from the
beginning, what they lead to is a forest of proper trees.
-/

namespace TurtleGraphics.Forest

variable {α : Type} {f g : Forest α}

theorem sound_empty : (empty : Forest α).Sound where
  linked p c := by simp [below, above, empty]
  nodup p := by simp [below, empty]
  grounded h := by
    constructor
    intro p parent
    simp [above, empty] at parent

theorem Sound.congr (sound : f.Sound) (above : ∀ h, g.above h = f.above h)
    (below : ∀ h, g.below h = f.below h) : g.Sound := by
  constructor
  · intro p c
    rw [below, above]
    exact sound.linked p c
  · intro p
    rw [below]
    exact sound.nodup p
  · intro h
    simp only [above]
    exact sound.grounded h

/-- A node that has just been made has no more links than one that was never made. -/
theorem above_leaf (f : Forest α) (v : α) (h : Nat) : (f.leaf v).2.above h = f.above h := by
  by_cases new : h = f.entries.size
  · simp [above, leaf, new]
  · simp [above, leaf, Array.getElem?_push, new]

theorem below_leaf (f : Forest α) (v : α) (h : Nat) : (f.leaf v).2.below h = f.below h := by
  by_cases new : h = f.entries.size
  · simp [below, leaf, new]
  · simp [below, leaf, Array.getElem?_push, new]

theorem Sound.leaf (sound : f.Sound) (v : α) : (f.leaf v).2.Sound :=
  sound.congr (above_leaf f v) (below_leaf f v)

theorem links_of_setValue {h : Nat} {v old : α} (done : f.setValue h v = .ok (old, g)) :
    (∀ k, g.above k = f.above k) ∧ ∀ k, g.below k = f.below k := by
  unfold Forest.setValue at done
  obtain ⟨e, -, done⟩ := ok_of_bind done
  cases done
  constructor
  · intro k
    simp only [above, Array.getElem?_modify]
    split
    · cases f.entries[k]? <;> rfl
    · rfl
  · intro k
    simp only [below, Array.getElem?_modify]
    split
    · cases f.entries[k]? <;> rfl
    · rfl

theorem Sound.setValue (sound : f.Sound) {h : Nat} {v old : α}
    (done : f.setValue h v = .ok (old, g)) : g.Sound := by
  obtain ⟨above, below⟩ := links_of_setValue done
  exact sound.congr above below

structure Attachable (f : Forest α) (p c : Nat) : Prop where
  parent : p < f.size
  child : c < f.size
  root : f.above c = none
  clear : ¬ f.Climbs p c

theorem above_link {p c : Nat} (child : c < f.size) (place : List Nat → List Nat) (h : Nat) :
    (f.link p c place).above h = if h = c then some p else f.above h := by
  simp only [above, entries_link]
  cases entry : f.entries[h]? with
  | none =>
    have differs : h ≠ c := by
      rintro rfl
      exact absurd child (by simpa [Forest.size] using entry)
    simp [differs]
  | some e => simp

theorem below_link {p c : Nat} (parent : p < f.size) (place : List Nat → List Nat) (h : Nat) :
    (f.link p c place).below h = if h = p then place (f.below p) else f.below h := by
  simp only [below, entries_link]
  cases entry : f.entries[h]? with
  | none =>
    have differs : h ≠ p := by
      rintro rfl
      exact absurd parent (by simpa [Forest.size] using entry)
    simp [differs]
  | some e =>
    by_cases same : h = p
    · subst same
      simp [entry]
    · simp [same]

/-- The new link is on no way up from a node that does not lie below the child. -/
theorem Climbs.of_link {p c x y : Nat} {place : List Nat → List Nat} (child : c < f.size)
    (climbs : (f.link p c place).Climbs x y) (clear : ¬ f.Climbs x c) : f.Climbs x y := by
  induction climbs using Relation.ReflTransGen.head_induction_on with
  | refl => exact .refl
  | @head x z first _ ih =>
    have differs : x ≠ c := by
      rintro rfl
      exact clear .refl
    rw [above_link child, if_neg differs] at first
    have further : ¬ f.Climbs z c := fun way => clear (.head first way)
    exact .head first (ih further)

theorem Sound.link (sound : f.Sound) {p c : Nat} (ok : f.Attachable p c)
    {place : List Nat → List Nat} (perm : (place (f.below p)).Perm (c :: f.below p)) :
    (f.link p c place).Sound := by
  have loose (q : Nat) : c ∉ f.below q := by
    intro member
    have parent := (sound.linked q c).mp member
    rw [ok.root] at parent
    cases parent
  have up := above_link (p := p) ok.child place
  have down := below_link (c := c) ok.parent place
  -- a way up that does not pass the child is as long as before
  have apart (x : Nat) (clear : ¬ f.Climbs x c) :
      Acc (fun q k => (f.link p c place).above k = some q) x := by
    induction sound.grounded x with
    | intro x _ ih =>
      constructor
      intro y parent
      have differs : x ≠ c := by
        rintro rfl
        exact clear .refl
      rw [up, if_neg differs] at parent
      exact ih y parent fun way => clear (.head parent way)
  constructor
  · intro q k
    rw [up, down]
    by_cases here : q = p
    · subst here
      rw [if_pos rfl, perm.mem_iff, List.mem_cons, sound.linked]
      by_cases child : k = c
      · simp [child]
      · simp [child]
    · rw [if_neg here, sound.linked]
      by_cases child : k = c
      · subst child
        simp [ok.root, Ne.symm here]
      · simp [child]
  · intro q
    rw [down]
    split
    · rw [perm.nodup_iff]
      exact List.nodup_cons.mpr ⟨loose p, sound.nodup p⟩
    · exact sound.nodup q
  · intro h
    induction sound.grounded h with
    | intro h _ ih =>
      constructor
      intro q parent
      rw [up] at parent
      split at parent
      · cases parent
        exact apart p ok.clear
      · exact ih q parent

theorem Attachable.append {p c d : Nat} (other : f.Attachable p d) (first : f.Attachable p c)
    (differs : d ≠ c) : (f.append p c).Attachable p d := by
  have size := size_link f p c (· ++ [c])
  constructor
  · exact size.symm ▸ other.parent
  · exact size.symm ▸ other.child
  · rw [Forest.append, above_link first.child, if_neg differs]
    exact other.root
  · intro way
    exact other.clear (way.of_link first.child first.clear)

theorem Sound.appendAll (sound : f.Sound) {p : Nat} {cs : List Nat} (distinct : cs.Nodup)
    (ok : ∀ c ∈ cs, f.Attachable p c) : (f.appendAll p cs).Sound := by
  induction cs generalizing f with
  | nil => exact sound
  | cons c cs ih =>
    obtain ⟨fresh, distinct⟩ := List.nodup_cons.mp distinct
    have first : f.Attachable p c := ok c (by simp)
    have linked : (f.append p c).Sound := sound.link first (List.perm_append_singleton c _)
    apply ih linked distinct
    intro d member
    have differs : d ≠ c := by
      rintro rfl
      exact fresh member
    exact (ok d (by simp [member])).append first differs

structure Checked (f : Forest α) (parent : Option Nat) (c : Nat) : Prop where
  child : c < f.size
  root : f.above c = none
  missed : ∀ p, parent = some p → f.contains c p = .ok false

theorem checked_of_checkChild {parent : Option Nat} {earlier : List Nat} {c : Nat}
    (passed : f.checkChild parent earlier c = .ok ()) : f.Checked parent c ∧ c ∉ earlier := by
  have loose (rest : (do
      let e ← f.entry c
      if e.parent.isSome || earlier.contains c then throw (Error.alreadyAttached c)) = .ok ()) :
      c < f.size ∧ f.above c = none ∧ c ∉ earlier := by
    obtain ⟨e, found, rest⟩ := ok_of_bind rest
    unfold Forest.entry at found
    split at found
    · rename_i entry
      cases found
      split at rest
      · cases rest
      · rename_i free
        simp only [Bool.or_eq_true, not_or, Bool.not_eq_true, Option.isSome_eq_false_iff,
          Option.isNone_iff_eq_none, List.contains_eq_mem, decide_eq_false_iff_not] at free
        refine ⟨(Array.getElem?_eq_some_iff.mp entry).1, ?_, free.2⟩
        rw [above_of_entry entry]
        exact free.1
    · cases found
  unfold checkChild at passed
  cases parent with
  | none =>
    obtain ⟨child, root, fresh⟩ := loose passed
    exact ⟨⟨child, root, by simp⟩, fresh⟩
  | some p =>
    obtain ⟨found, searched, passed⟩ := ok_of_bind passed
    cases found with
    | true => cases passed
    | false =>
      obtain ⟨child, root, fresh⟩ := loose passed
      refine ⟨⟨child, root, ?_⟩, fresh⟩
      intro q same
      cases same
      exact searched

theorem checked_of_checkChildren {parent : Option Nat} {earlier cs : List Nat}
    (passed : f.checkChildren parent earlier cs = .ok ()) :
    cs.Nodup ∧ ∀ c ∈ cs, f.Checked parent c ∧ c ∉ earlier := by
  induction cs generalizing earlier with
  | nil => simp
  | cons c cs ih =>
    obtain ⟨_, one, rest⟩ := ok_of_bind passed
    have first := checked_of_checkChild one
    obtain ⟨distinct, others⟩ := ih rest
    constructor
    · rw [List.nodup_cons]
      refine ⟨?_, distinct⟩
      intro again
      exact (others c again).2 (by simp)
    · intro d member
      rcases List.mem_cons.mp member with rfl | later
      · exact first
      · obtain ⟨checked, fresh⟩ := others d later
        exact ⟨checked, fun old => fresh (by simp [old])⟩

theorem Checked.attachable (sound : f.Sound) {p c : Nat} (checked : f.Checked (some p) c)
    (inside : p < f.size) : f.Attachable p c where
  parent := inside
  child := checked.child
  root := checked.root
  clear := sound.not_climbs_of_contains (checked.missed p rfl)

theorem lt_size_of_entry {h : Nat} {e : Entry α} (found : f.entry h = .ok e) :
    f.entries[h]? = some e ∧ h < f.size := by
  unfold Forest.entry at found
  split at found
  · rename_i entry
    cases found
    exact ⟨entry, (Array.getElem?_eq_some_iff.mp entry).1⟩
  · cases found

theorem Sound.node (sound : f.Sound) {v : α} {cs : List Nat} {h : Nat}
    (done : f.node v cs = .ok (h, g)) : g.Sound := by
  obtain ⟨_, passed, done⟩ := ok_of_bind done
  obtain ⟨distinct, checked⟩ := checked_of_checkChildren passed
  have made : (f.leaf v).2.appendAll f.size cs = g := (Prod.mk.inj (Except.ok.inj done)).2
  have size : (f.leaf v).2.size = f.size + 1 := by simp [Forest.leaf, Forest.size]
  rw [← made]
  apply (sound.leaf v).appendAll distinct
  intro c member
  have old : c < f.size := (checked c member).1.child
  have top : (f.leaf v).2.above f.size = none := by simp [above, Forest.leaf, Forest.size]
  constructor
  · omega
  · omega
  · rw [above_leaf]
    exact (checked c member).1.root
  · intro way
    have same : c = f.size := way.eq_of_root top
    omega

theorem Sound.addChildren (sound : f.Sound) {p : Nat} {cs : List Nat}
    (done : f.addChildren p cs = .ok g) : g.Sound := by
  obtain ⟨_, passed, done⟩ := ok_of_bind done
  obtain ⟨distinct, checked⟩ := checked_of_checkChildren passed
  split at done
  · cases done
    exact sound
  · obtain ⟨e, found, done⟩ := ok_of_bind done
    cases done
    apply sound.appendAll distinct
    intro c member
    exact (checked c member).1.attachable sound (lt_size_of_entry found).2

theorem Sound.insertChild (sound : f.Sound) {p i c : Nat}
    (done : f.insertChild p i c = .ok g) : g.Sound := by
  obtain ⟨e, found, done⟩ := ok_of_bind done
  obtain ⟨entry, inside⟩ := lt_size_of_entry found
  split at done
  · cases done
  · rename_i room
    obtain ⟨_, passed, done⟩ := ok_of_bind done
    cases done
    have checked := ((checked_of_checkChildren passed).2 c (by simp)).1
    apply sound.link (checked.attachable sound inside)
    rw [below_of_entry entry]
    exact List.perm_insertIdx c _ (by omega)

theorem links_of_removeChild {p i c : Nat} (done : f.removeChild p i = .ok (c, g)) :
    (f.below p)[i]? = some c ∧ (∀ h, g.above h = if h = c then none else f.above h) ∧
      ∀ h, g.below h = if h = p then (f.below p).eraseIdx i else f.below h := by
  obtain ⟨e, found, done⟩ := ok_of_bind done
  have entry := (lt_size_of_entry found).1
  have children : f.below p = e.children := below_of_entry entry
  cases there : e.children[i]? with
  | none =>
    rw [there] at done
    cases done
  | some child =>
    rw [there] at done
    cases done
    refine ⟨children ▸ there, ?_, ?_⟩
    · intro h
      simp only [above, Array.getElem?_modify]
      cases f.entries[h]? with
      | none => by_cases same : h = c <;> simp [same]
      | some e => by_cases parent : p = h <;> by_cases child : c = h <;>
          simp [parent, child, eq_comm]
    · intro h
      rw [children]
      simp only [below, Array.getElem?_modify]
      by_cases parent : h = p
      · subst parent
        by_cases child : c = h <;> simp [entry, child]
      · by_cases child : c = h
        · subst child
          cases f.entries[c]? <;> simp [parent, Ne.symm parent]
        · simp [parent, Ne.symm parent, child]

theorem Sound.removeChild (sound : f.Sound) {p i c : Nat}
    (done : f.removeChild p i = .ok (c, g)) : g.Sound := by
  obtain ⟨there, up, down⟩ := links_of_removeChild done
  have distinct := sound.nodup p
  obtain ⟨inside, same⟩ := List.getElem?_eq_some_iff.mp there
  have child : f.above c = some p := (sound.linked p c).mp (same ▸ List.getElem_mem inside)
  have left : (f.below p).eraseIdx i = (f.below p).erase c := by
    rw [← same]
    exact (distinct.erase_getElem i inside).symm
  constructor
  · intro q k
    rw [up, down, left]
    by_cases here : q = p
    · subst here
      rw [if_pos rfl, distinct.mem_erase_iff, sound.linked]
      by_cases gone : k = c <;> simp [gone]
    · rw [if_neg here, sound.linked]
      by_cases gone : k = c
      · subst gone
        simp [child, Ne.symm here]
      · simp [gone]
  · intro q
    rw [down]
    split
    · exact distinct.eraseIdx i
    · exact sound.nodup q
  · intro h
    have fewer : Subrelation (fun q k => g.above k = some q) (fun q k => f.above k = some q) := by
      intro q k parent
      rw [up] at parent
      split at parent
      · cases parent
      · exact parent
    exact fewer.accessible (sound.grounded h)

theorem Sound.apply (sound : f.Sound) {e : Edit α} {answer : Edit.Answer α}
    (done : f.apply e = .ok (answer, g)) : g.Sound := by
  cases e with
  | leaf v =>
    cases done
    exact sound.leaf v
  | node v cs =>
    obtain ⟨⟨h, k⟩, made, same⟩ := ok_of_map done
    cases same
    exact sound.node made
  | addChild p c =>
    obtain ⟨k, made, same⟩ := ok_of_map done
    cases same
    exact sound.addChildren made
  | insertChild p i c =>
    obtain ⟨k, made, same⟩ := ok_of_map done
    cases same
    exact sound.insertChild made
  | addChildren p cs =>
    obtain ⟨k, made, same⟩ := ok_of_map done
    cases same
    exact sound.addChildren made
  | removeChild p i =>
    obtain ⟨⟨c, k⟩, made, same⟩ := ok_of_map done
    cases same
    exact sound.removeChild made
  | setValue h v =>
    obtain ⟨⟨old, k⟩, made, same⟩ := ok_of_map done
    cases same
    exact sound.setValue made

theorem Sound.after (sound : f.Sound) (e : Edit α) : (f.after e).Sound := by
  unfold Forest.after
  split
  · rename_i done
    exact sound.apply done
  · exact sound

theorem Sound.afterAll (sound : f.Sound) (es : List (Edit α)) : (f.afterAll es).Sound := by
  induction es generalizing f with
  | nil => exact sound
  | cons e es ih => exact ih (sound.after e)

theorem parent_eq_ok {c p : Nat} : f.parent c = .ok (some p) ↔ f.above c = some p := by
  simp only [Forest.parent, Forest.entry, above]
  cases f.entries[c]? <;> simp [Except.map]

theorem children_eq_ok {p c : Nat} :
    (∃ cs, f.children p = .ok cs ∧ c ∈ cs) ↔ c ∈ f.below p := by
  simp only [Forest.children, Forest.entry, below]
  cases f.entries[p]? <;> simp [Except.map]

theorem below_of_children {p : Nat} {cs : List Nat} (noted : f.children p = .ok cs) :
    f.below p = cs := by
  obtain ⟨e, found, same⟩ := ok_of_map noted
  rw [below_of_entry (lt_size_of_entry found).1]
  exact same

theorem parent_of_root {r : Nat} (inside : r < f.size) (root : f.above r = none) :
    f.parent r = .ok none := by
  have entry : f.entries[r]? = some f.entries[r] := Array.getElem?_eq_getElem inside
  rw [above_of_entry entry] at root
  simp [Forest.parent, Forest.entry, entry, Except.map, root]

theorem Sound.climbs_lt (sound : f.Sound) {h r : Nat} (inside : h < f.size)
    (way : f.Climbs h r) : r < f.size := by
  cases Relation.ReflTransGen.cases_tail way with
  | inl same => exact same ▸ inside
  | inr up =>
    obtain ⟨c, _, last⟩ := up
    exact sound.parent_lt last

structure Proper (f : Forest α) : Prop where
  children_lt : ∀ p cs, f.children p = .ok cs → ∀ c ∈ cs, c < f.size
  parent_lt : ∀ c p, f.parent c = .ok (some p) → p < f.size
  linked : ∀ p c, (∃ cs, f.children p = .ok cs ∧ c ∈ cs) ↔ f.parent c = .ok (some p)
  once : ∀ p cs, f.children p = .ok cs → ∀ c ∈ cs, cs.count c = 1
  single : ∀ c < f.size, f.parent c = .ok none ∨ ∃! p, ∃ cs, f.children p = .ok cs ∧ c ∈ cs
  acyclic : ∀ h, ¬ f.Ancestor h h
  rooted : ∀ h < f.size, ∃ r, f.Climbs h r ∧ f.parent r = .ok none

theorem Sound.proper (sound : f.Sound) : f.Proper := by
  have linked (p c : Nat) :
      (∃ cs, f.children p = .ok cs ∧ c ∈ cs) ↔ f.parent c = .ok (some p) := by
    rw [children_eq_ok, parent_eq_ok]
    exact sound.linked p c
  constructor
  · intro p cs noted c member
    have parent := (linked p c).mp ⟨cs, noted, member⟩
    exact lt_size_of_above (parent_eq_ok.mp parent)
  · intro c p parent
    exact sound.parent_lt (parent_eq_ok.mp parent)
  · exact linked
  · intro p cs noted c member
    have distinct : cs.Nodup := below_of_children noted ▸ sound.nodup p
    exact List.count_eq_one_of_mem distinct member
  · intro c inside
    cases parent : f.above c with
    | none => exact .inl (parent_of_root inside parent)
    | some p =>
      have here := parent_eq_ok.mpr parent
      refine .inr ⟨p, (linked p c).mpr here, ?_⟩
      intro q other
      have there := (linked q c).mp other
      rw [here] at there
      cases there
      rfl
  · exact sound.not_ancestor_self
  · intro h inside
    obtain ⟨r, way, root⟩ := sound.climbs_root h
    exact ⟨r, way, parent_of_root (sound.climbs_lt inside way) root⟩

/-- Whatever edits are asked for, in whatever order, and whether or not they are refused. -/
theorem proper_afterAll (es : List (Edit α)) : (afterAll empty es).Proper :=
  (sound_empty.afterAll es).proper

/-- Under `a` come `b` and `c`, `c` goes over to `b`, and `a` may not go below `c`. -/
example : (afterAll empty [.leaf "a", .leaf "b", .leaf "c", .addChildren 0 [1, 2],
    .removeChild 0 1, .addChild 1 2, .addChild 2 0] : Forest String).entries =
      #[⟨"a", [1], none⟩, ⟨"b", [2], some 0⟩, ⟨"c", [], some 1⟩] := by
  rfl

end TurtleGraphics.Forest
