import TurtleGraphics.Proofs.Forest.Upkeep

/-!
Why a node is refused as a child. The search from the child finds out whether it is the parent or
lies above it. So a list of children is refused at the first one that would close a cycle, that has
a parent, or that stands in the list before, and every other list is accepted.
-/

namespace TurtleGraphics.Forest

variable {α : Type} {f : Forest α} {parent : Option Nat} {earlier cs : List Nat} {c : Nat}
  {err : Error}

/-- What is wrong with a node as a child of `parent`, or of a node that is yet to be made: it is the
parent or lies above it, or else it has a parent or has been named before. -/
inductive Objection (f : Forest α) (parent : Option Nat) (earlier : List Nat) (c : Nat) :
    Error → Prop
  | cycle {p : Nat} (under : parent = some p) (above : f.Climbs p c) :
    Objection f parent earlier c (.cycle p c)
  | attached (clear : ∀ p, parent = some p → ¬ f.Climbs p c)
    (taken : f.above c ≠ none ∨ c ∈ earlier) : Objection f parent earlier c (.alreadyAttached c)

structure Admissible (f : Forest α) (parent : Option Nat) (cs : List Nat) : Prop where
  distinct : cs.Nodup
  roots : ∀ c ∈ cs, f.above c = none
  clear : ∀ c ∈ cs, ∀ p, parent = some p → ¬ f.Climbs p c

theorem admissible_nil (f : Forest α) (parent : Option Nat) : f.Admissible parent [] :=
  ⟨List.nodup_nil, by simp, by simp⟩

theorem admissible_cons : f.Admissible parent (c :: cs) ↔
    ((∀ p, parent = some p → ¬ f.Climbs p c) ∧ f.above c = none) ∧ c ∉ cs ∧
      f.Admissible parent cs := by
  constructor
  · rintro ⟨distinct, roots, clear⟩
    obtain ⟨new, distinct⟩ := List.nodup_cons.mp distinct
    exact ⟨⟨clear c (by simp), roots c (by simp)⟩, new, distinct,
      fun d member => roots d (by simp [member]), fun d member => clear d (by simp [member])⟩
  · rintro ⟨⟨apart, root⟩, new, distinct, roots, clear⟩
    exact ⟨List.nodup_cons.mpr ⟨new, distinct⟩, List.forall_mem_cons.mpr ⟨root, roots⟩,
      List.forall_mem_cons.mpr ⟨apart, clear⟩⟩

/-- There is something wrong with a node of the list, and nothing with those before it. -/
def FirstObjection (f : Forest α) (parent : Option Nat) (cs : List Nat) (err : Error) : Prop :=
  ∃ before c rest, cs = before ++ c :: rest ∧ f.Admissible parent before ∧
    f.Objection parent before c err

theorem Objection.congr {others : List Nat} (same : ∀ d, d ∈ earlier ↔ d ∈ others)
    (objection : f.Objection parent earlier c err) : f.Objection parent others c err := by
  cases objection with
  | cycle under above => exact .cycle under above
  | attached clear taken => exact .attached clear (taken.imp_right (same c).mp)

/-- What the parent has to do with the child is asked first. -/
theorem Sound.checkChild_eq (sound : f.Sound) (inside : c < f.size) :
    (∃ p, parent = some p ∧ f.Climbs p c ∧ f.checkChild parent earlier c = .error (.cycle p c)) ∨
    (∀ p, parent = some p → ¬ f.Climbs p c) ∧ f.checkChild parent earlier c =
      if (f.above c).isSome || earlier.contains c then .error (.alreadyAttached c) else .ok () := by
  obtain ⟨e, here⟩ := entry_of_lt inside
  have noted : f.above c = e.parent := above_of_entry (lt_size_of_entry here).1
  cases parent with
  | none =>
    refine .inr ⟨by simp, ?_⟩
    simp only [checkChild, here, noted, bind, Except.bind]
    rfl
  | some p =>
    obtain ⟨found, searched, answer⟩ := sound.contains_eq inside p
    cases found with
    | true =>
      refine .inl ⟨p, rfl, answer.mp rfl, ?_⟩
      simp only [checkChild, searched, bind, Except.bind]
      rfl
    | false =>
      refine .inr ⟨?_, ?_⟩
      · rintro q same
        cases same
        simpa using answer
      · simp only [checkChild, searched, here, noted, bind, Except.bind]
        rfl

theorem Sound.checkChild_eq_error_iff (sound : f.Sound) (inside : c < f.size) :
    f.checkChild parent earlier c = .error err ↔ f.Objection parent earlier c err := by
  rcases sound.checkChild_eq inside with ⟨p, under, above, refused⟩ | ⟨clear, checked⟩
  · rw [refused]
    constructor
    · intro same
      cases same
      exact .cycle under above
    · intro objection
      cases objection with
      | cycle again =>
        cases under.symm.trans again
        rfl
      | attached clear => exact absurd above (clear p under)
  · rw [checked]
    constructor
    · intro refused
      split at refused
      · rename_i taken
        cases refused
        refine .attached clear ?_
        simpa [Option.isSome_iff_ne_none] using taken
      · cases refused
    · intro objection
      cases objection with
      | cycle under above => exact absurd above (clear _ under)
      | attached _ taken =>
        have found : ((f.above c).isSome || earlier.contains c) = true := by
          simpa [Option.isSome_iff_ne_none] using taken
        rw [if_pos found]

theorem Sound.checkChild_eq_ok_iff (sound : f.Sound) (inside : c < f.size) :
    f.checkChild parent earlier c = .ok () ↔
      (∀ p, parent = some p → ¬ f.Climbs p c) ∧ f.above c = none ∧ c ∉ earlier := by
  rcases sound.checkChild_eq inside with ⟨p, under, above, refused⟩ | ⟨clear, checked⟩
  · rw [refused]
    constructor
    · intro other
      cases other
    · intro fine
      exact absurd above (fine.1 p under)
  · rw [checked]
    constructor
    · intro passed
      split at passed
      · cases passed
      · rename_i loose
        refine ⟨clear, ?_⟩
        simpa using loose
    · rintro ⟨-, root, new⟩
      simp [root, new]

theorem checkChildren_cons_eq_ok_iff : f.checkChildren parent earlier (c :: cs) = .ok () ↔
    f.checkChild parent earlier c = .ok () ∧
      f.checkChildren parent (c :: earlier) cs = .ok () := by
  change (f.checkChild parent earlier c >>= fun _ => _) = .ok () ↔ _
  rw [bind_eq_ok_iff]
  constructor
  · rintro ⟨_, one, rest⟩
    exact ⟨one, rest⟩
  · rintro ⟨one, rest⟩
    exact ⟨(), one, rest⟩

theorem Sound.checkChildren_eq_ok_iff (sound : f.Sound) (inside : ∀ c ∈ cs, c < f.size) :
    f.checkChildren parent earlier cs = .ok () ↔
      f.Admissible parent cs ∧ ∀ c ∈ cs, c ∉ earlier := by
  induction cs generalizing earlier with
  | nil => simp [checkChildren, admissible_nil]
  | cons c cs ih =>
    have first : f.checkChild parent earlier c = .ok () ↔ _ :=
      sound.checkChild_eq_ok_iff (inside c (by simp))
    have others : f.checkChildren parent (c :: earlier) cs = .ok () ↔ _ :=
      ih fun d member => inside d (by simp [member])
    rw [checkChildren_cons_eq_ok_iff, first, others, admissible_cons]
    simp only [List.mem_cons, not_or]
    grind

/-- A list is refused at the first node that does not pass. -/
theorem checkChildren_eq_error : f.checkChildren parent earlier cs = .error err ↔
    ∃ before c rest, cs = before ++ c :: rest ∧ f.checkChildren parent earlier before = .ok () ∧
      f.checkChild parent (before.reverse ++ earlier) c = .error err := by
  induction cs generalizing earlier with
  | nil => simp [checkChildren]
  | cons c cs ih =>
    change (f.checkChild parent earlier c >>= fun _ => _) = .error err ↔ _
    rw [bind_eq_error_iff]
    constructor
    · rintro (here | ⟨_, passed, later⟩)
      · exact ⟨[], c, cs, rfl, rfl, here⟩
      · obtain ⟨before, d, rest, rfl, others, refused⟩ := ih.mp later
        refine ⟨c :: before, d, rest, rfl, checkChildren_cons_eq_ok_iff.mpr ⟨passed, others⟩, ?_⟩
        simpa using refused
    · rintro ⟨before, d, rest, split, passed, refused⟩
      cases before with
      | nil =>
        cases split
        exact .inl refused
      | cons b before =>
        cases split
        obtain ⟨first, others⟩ := checkChildren_cons_eq_ok_iff.mp passed
        exact .inr ⟨(), first, ih.mpr ⟨before, d, rest, rfl, others, by simpa using refused⟩⟩

theorem Sound.checkChildren_eq_error_iff (sound : f.Sound) (inside : ∀ c ∈ cs, c < f.size) :
    f.checkChildren parent [] cs = .error err ↔ f.FirstObjection parent cs err := by
  rw [checkChildren_eq_error]
  refine exists_congr fun before => exists_congr fun c => exists_congr fun rest => ?_
  refine and_congr_right ?_
  rintro rfl
  have earlier : ∀ d ∈ before, d < f.size := fun d member => inside d (by simp [member])
  have passed : f.checkChildren parent [] before = .ok () ↔ f.Admissible parent before := by
    simp [sound.checkChildren_eq_ok_iff earlier]
  have refused : f.checkChild parent (before.reverse ++ []) c = .error err ↔
      f.Objection parent before c err := by
    rw [sound.checkChild_eq_error_iff (inside c (by simp))]
    exact ⟨.congr (by simp), .congr (by simp)⟩
  rw [passed, refused]

end TurtleGraphics.Forest
