import TurtleGraphics.Proofs.Forest.Effect

/-!
Putting a child in its place and taking it out again, and taking it out and putting it back: each
brings back the forest as it was. A child that has been taken out is a root, and its former parent
does not lie below it, so it may go back where it was with everything that hangs on it.
-/

namespace TurtleGraphics.Forest

variable {α : Type} {f g k : Forest α} {p i c : Nat}

/-- A forest is told by its values and its links. -/
theorem eq_of_links (size : g.size = f.size) (value : ∀ h, g.value h = f.value h)
    (below : ∀ h, g.below h = f.below h) (above : ∀ h, g.above h = f.above h) : g = f := by
  have entries : g.entries = f.entries := by
    apply Array.ext_getElem?
    intro h
    have values := value h
    have children := below h
    have parents := above h
    simp only [Forest.value, Forest.entry, Forest.below, Forest.above] at values children parents
    cases new : g.entries[h]? with
    | none =>
      have out : g.size ≤ h := Array.getElem?_eq_none_iff.mp new
      rw [size] at out
      exact (Array.getElem?_eq_none out).symm
    | some d =>
      cases old : f.entries[h]? with
      | none => simp [new, old, Except.map] at values
      | some e =>
        obtain ⟨v, cs, parent⟩ := d
        obtain ⟨w, ds, other⟩ := e
        simp only [new, old, Except.map, Except.ok.injEq, Option.elim_some,
          Option.bind_some] at values children parents
        rw [values, children, parents]
  exact congrArg Forest.mk entries

/-- Two changes to the links of one child restore a forest if the second brings back the children
and the parent that were there before the first. -/
theorem Relinked.restores {list : List Nat} {parent other : Option Nat}
    (first : Relinked f g p list [c] parent) (second : Relinked g k p (f.below p) [c] other)
    (before : f.above c = other) : k = f := by
  apply eq_of_links (second.size.trans first.size)
  · intro h
    rw [second.value, first.value]
  · intro h
    rw [second.below, first.below]
    by_cases same : h = p <;> simp [same]
  · intro h
    rw [second.above, first.above]
    by_cases same : h = c <;> simp [same, before]

theorem removeChild_of_below (there : (f.below p)[i]? = some c) :
    ∃ g, f.removeChild p i = .ok (c, g) := by
  obtain ⟨near, -⟩ := List.getElem?_eq_some_iff.mp there
  have parent : p < f.size := lt_size_of_below (List.mem_of_getElem? there)
  cases came : f.removeChild p i with
  | error err =>
    obtain ⟨far, -⟩ := (removeChild_eq_error_iff parent).mp came
    exact absurd near (Nat.not_lt.mpr far)
  | ok result =>
    obtain ⟨d, g⟩ := result
    obtain ⟨found, -⟩ := Relinked.of_removeChild came
    obtain rfl : c = d := Option.some.inj (there.symm.trans found)
    exact ⟨g, rfl⟩

theorem Sound.insertChild_of_admissible (sound : f.Sound) (parent : p < f.size)
    (child : c < f.size) (near : i ≤ (f.below p).length) (fits : f.Admissible (some p) [c]) :
    ∃ g, f.insertChild p i c = .ok g := by
  have inside : ∀ d ∈ [c], d < f.size := by simpa using child
  have passed : f.checkChildren (some p) [] [c] = .ok () :=
    (sound.checkChildren_eq_ok_iff inside).mpr ⟨fits, by simp⟩
  cases came : f.insertChild p i c with
  | ok g => exact ⟨g, rfl⟩
  | error err =>
    rcases (sound.insertChild_eq_error_iff parent child).mp came with ⟨far, -⟩ | ⟨-, first⟩
    · exact absurd near (Nat.not_le.mpr far)
    · rw [← sound.checkChildren_eq_error_iff inside, passed] at first
      cases first

theorem Relinked.climbs {list : List Nat} (cut : Relinked f g p list [c] none) {h a : Nat}
    (way : g.Climbs h a) : f.Climbs h a := by
  refine Relation.ReflTransGen.mono (fun x y parent => ?_) h a way
  rw [cut.above] at parent
  split at parent
  · cases parent
  · exact parent

/-- What has been inserted can be removed again, and the forest is as it was. -/
theorem removeChild_of_insertChild (done : f.insertChild p i c = .ok g) :
    g.removeChild p i = .ok (c, f) := by
  obtain ⟨near, inserted⟩ := Relinked.of_insertChild done
  have root : f.above c = none := by
    obtain ⟨e, -, done⟩ := ok_of_bind done
    split at done
    · cases done
    · obtain ⟨_, passed, -⟩ := ok_of_bind done
      exact ((checked_of_checkChildren passed).2 c (by simp)).1.root
  have list : g.below p = (f.below p).insertIdx i c := by simp [inserted.below]
  have there : (g.below p)[i]? = some c := by
    rw [list]
    exact List.getElem?_insertIdx_self.trans (if_pos near)
  obtain ⟨k, undone⟩ := removeChild_of_below there
  obtain ⟨-, removed⟩ := Relinked.of_removeChild undone
  rw [list, List.eraseIdx_insertIdx_self] at removed
  rw [undone, inserted.restores removed root]

/-- What has been removed can be put back, and the forest is as it was. -/
theorem Sound.insertChild_of_removeChild (sound : f.Sound) (done : f.removeChild p i = .ok (c, g)) :
    g.insertChild p i c = .ok f := by
  obtain ⟨there, removed⟩ := Relinked.of_removeChild done
  obtain ⟨inside, same⟩ := List.getElem?_eq_some_iff.mp there
  have listed : c ∈ f.below p := same ▸ List.getElem_mem inside
  have parent : f.above c = some p := (sound.linked p c).mp listed
  have list : g.below p = (f.below p).eraseIdx i := by simp [removed.below]
  have near : i ≤ (g.below p).length := by
    rw [list, List.length_eraseIdx_of_lt inside]
    omega
  -- the former parent cannot lie below the child: it did not before, and no link is new
  have fits : g.Admissible (some p) [c] := by
    refine ⟨List.nodup_singleton c, ?_, ?_⟩
    · simp [removed.above]
    · intro d member q under way
      obtain rfl := List.mem_singleton.mp member
      cases under
      exact sound.not_climbs_child parent (removed.climbs way)
  obtain ⟨k, undone⟩ := (sound.removeChild done).insertChild_of_admissible
    (removed.size.symm ▸ lt_size_of_below listed) (removed.size.symm ▸ lt_size_of_above parent)
    near fits
  obtain ⟨-, inserted⟩ := Relinked.of_insertChild undone
  have back : ((f.below p).eraseIdx i).insertIdx i c = f.below p := by
    rw [← same]
    exact List.insertIdx_eraseIdx_getElem inside
  rw [list, back] at inserted
  rw [undone, removed.restores inserted parent]

structure Reversible (f : Forest α) : Prop where
  inserted : ∀ p i c g, f.insertChild p i c = .ok g → g.removeChild p i = .ok (c, f)
  removed : ∀ p i c g, f.removeChild p i = .ok (c, g) → g.insertChild p i c = .ok f

/-- Whatever forest edits have led to. -/
theorem reversible_afterAll (es : List (Edit α)) : (afterAll empty es).Reversible where
  inserted _ _ _ _ done := removeChild_of_insertChild done
  removed _ _ _ _ done := (sound_empty.afterAll es).insertChild_of_removeChild done

/-- `b` leaves its place below `a` together with `c`, and comes back to it. -/
example :
    let f : Forest String := ⟨#[⟨"a", [1, 3], none⟩, ⟨"b", [2], some 0⟩, ⟨"c", [], some 1⟩,
      ⟨"d", [], some 0⟩]⟩
    (f.removeChild 0 0).bind (fun (b, g) => g.insertChild 0 0 b) = .ok f := by
  rfl

end TurtleGraphics.Forest
