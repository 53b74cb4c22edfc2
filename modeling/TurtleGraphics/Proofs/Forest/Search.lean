import TurtleGraphics.Proofs.Forest.Upkeep

/-!
The search below a node, told by what it does. Nodes wait on a stack; the one on top is looked at,
and unless it is the target its children are put on the stack, the last of them on top. Nothing
bounds the search and it keeps no note of where it has been. That it ends, and looks at no node
twice, is due to the forest.
-/

namespace TurtleGraphics.Forest

variable {α : Type} {f : Forest α} {target : Nat}

inductive Search (f : Forest α) (target : Nat) : List Nat → List Nat → Bool → Prop
  | missed : Search f target [] [] false
  | found {waiting : List Nat} : Search f target (target :: waiting) [target] true
  | further {h : Nat} {e : Entry α} {waiting looked : List Nat} {answer : Bool}
    (differs : h ≠ target) (here : f.entries[h]? = some e)
    (rest : Search f target (e.children.reverse ++ waiting) looked answer) :
    Search f target (h :: waiting) (h :: looked) answer

/-- The stack tells all of what comes. -/
theorem Search.unique {waiting looked others : List Nat} {answer other : Bool}
    (first : f.Search target waiting looked answer)
    (second : f.Search target waiting others other) :
    looked = others ∧ answer = other := by
  induction first generalizing others with
  | missed =>
    cases second
    exact ⟨rfl, rfl⟩
  | found =>
    cases second with
    | found => exact ⟨rfl, rfl⟩
    | further differs => exact absurd rfl differs
  | further differs here _ ih =>
    cases second with
    | found => exact absurd rfl differs
    | further _ again rest =>
      cases here.symm.trans again
      obtain ⟨rfl, rfl⟩ := ih rest
      exact ⟨rfl, rfl⟩

/-- In which order nodes wait is of no account. -/
theorem Searching.perm {steps : Nat} {seen : Finset Nat} {waiting others : List Nat}
    (search : f.Searching steps seen waiting) (same : waiting.Perm others) :
    f.Searching steps seen others where
  inside w member := search.inside w (same.mem_iff.mpr member)
  apart := (same.pairwise_iff fun apart => And.symm apart).mp search.apart
  past s member w waits := search.past s member w (same.mem_iff.mpr waits)
  bounded := search.bounded
  enough := search.enough

structure Settled (f : Forest α) (target : Nat) (waiting looked : List Nat) (answer : Bool) :
    Prop where
  search : f.Search target waiting looked answer
  once : looked.Nodup
  below : ∀ h ∈ looked, ∃ w ∈ waiting, f.Climbs h w
  right : answer = true ↔ ∃ w ∈ waiting, f.Climbs target w

theorem settled_nil (f : Forest α) (target : Nat) : f.Settled target [] [] false where
  search := .missed
  once := List.nodup_nil
  below := by simp
  right := by simp

theorem settled_target (f : Forest α) (target : Nat) (waiting : List Nat) :
    f.Settled target (target :: waiting) [target] true where
  search := .found
  once := List.nodup_singleton target
  below h member := ⟨target, by simp, List.mem_singleton.mp member ▸ .refl⟩
  right := by
    constructor
    · intro _
      exact ⟨target, by simp, .refl⟩
    · intro _
      rfl

/-- What lies below a node or below others lies, but for the node itself, below one of its children
or below the others. -/
theorem Sound.climbs_below_iff (sound : f.Sound) {h x : Nat} {waiting : List Nat}
    (differs : h ≠ x) : (∃ w ∈ h :: waiting, f.Climbs x w) ↔
      ∃ w ∈ (f.below h).reverse ++ waiting, f.Climbs x w := by
  constructor
  · rintro ⟨w, waits, way⟩
    rcases List.mem_cons.mp waits with rfl | later
    · obtain ⟨c, child, lower⟩ := way.through_child sound differs.symm
      exact ⟨c, by simp [child], lower⟩
    · exact ⟨w, by simp [later], way⟩
  · rintro ⟨w, waits, way⟩
    rcases List.mem_append.mp waits with child | later
    · have parent : f.above w = some h := (sound.linked h w).mp (List.mem_reverse.mp child)
      exact ⟨h, by simp, way.tail parent⟩
    · exact ⟨w, by simp [later], way⟩

theorem Settled.further (sound : f.Sound) {h : Nat} {e : Entry α} {waiting looked : List Nat}
    {answer : Bool} (differs : h ≠ target) (here : f.entries[h]? = some e) (new : h ∉ looked)
    (rest : f.Settled target ((f.below h).reverse ++ waiting) looked answer) :
    f.Settled target (h :: waiting) (h :: looked) answer where
  search := .further differs here (below_of_entry here ▸ rest.search)
  once := List.nodup_cons.mpr ⟨new, rest.once⟩
  below x member := by
    by_cases same : h = x
    · exact ⟨h, by simp, same ▸ .refl⟩
    · have later : x ∈ looked := (List.mem_cons.mp member).resolve_left (Ne.symm same)
      exact (sound.climbs_below_iff same).mpr (rest.below x later)
  right := rest.right.trans (sound.climbs_below_iff differs).symm

/-- The induction is on the steps that are enough for what has not been seen. -/
theorem Searching.settled (sound : f.Sound) (target : Nat) {steps : Nat} {seen : Finset Nat}
    {waiting : List Nat} (search : f.Searching steps seen waiting) :
    ∃ looked answer, f.Settled target waiting looked answer ∧ ∀ h ∈ looked, h ∉ seen := by
  induction steps generalizing seen waiting with
  | zero =>
    rw [search.waiting_eq_nil]
    exact ⟨[], false, settled_nil f target, by simp⟩
  | succ steps ih =>
    cases waiting with
    | nil => exact ⟨[], false, settled_nil f target, by simp⟩
    | cons h waiting =>
      have fresh : h ∉ seen := fun member => search.past h member h (by simp) .refl
      by_cases found : h = target
      · subst found
        exact ⟨[h], true, settled_target f h waiting, by simpa using fresh⟩
      · obtain ⟨e, given⟩ := entry_of_lt (search.inside h (by simp))
        have here : f.entries[h]? = some e := (lt_size_of_entry given).1
        have reversed : (f.below h ++ waiting).Perm ((f.below h).reverse ++ waiting) :=
          (List.reverse_perm _).symm.append_right waiting
        obtain ⟨looked, answer, rest, unseen⟩ := ih ((search.step sound).perm reversed)
        have new : h ∉ looked := fun member => unseen h member (Finset.mem_insert_self h seen)
        refine ⟨h :: looked, answer, rest.further sound found here new, ?_⟩
        intro x member
        rcases List.mem_cons.mp member with rfl | later
        · exact fresh
        · exact fun old => unseen x later (Finset.mem_insert_of_mem old)

structure Decides (f : Forest α) (r n : Nat) : Prop where
  ends : ∃ looked answer, f.Search n [r] looked answer ∧ f.contains r n = .ok answer ∧
    looked.Nodup ∧ ∀ h ∈ looked, f.Climbs h r
  one : ∀ looked answer others other, f.Search n [r] looked answer →
    f.Search n [r] others other → looked = others ∧ answer = other
  right : f.contains r n = .ok true ↔ f.Climbs n r
  missing : f.size ≤ n → f.contains r n = .ok false

theorem Sound.decides (sound : f.Sound) {r : Nat} (inside : r < f.size) (n : Nat) :
    f.Decides r n := by
  obtain ⟨found, contained, correct⟩ := sound.contains_eq inside n
  obtain ⟨looked, answer, settled, -⟩ := (Searching.start inside).settled sound n
  have same : found = answer := by
    rw [Bool.eq_iff_iff, correct, settled.right]
    simp
  constructor
  · refine ⟨looked, answer, settled.search, same ▸ contained, settled.once, ?_⟩
    simpa using settled.below
  · intro _ _ _ _ first second
    exact first.unique second
  · rw [contained, ← correct, Except.ok.injEq]
  · intro out
    have apart : ¬ f.Climbs n r := by
      intro way
      have top : f.above n = none := by
        cases parent : f.above n with
        | none => rfl
        | some p => exact absurd (lt_size_of_above parent) (Nat.not_lt.mpr out)
      have same : r = n := way.eq_of_root top
      omega
    rw [contained, Bool.eq_false_iff.mpr fun yes => apart (correct.mp yes)]

/-- In whatever forest edits have led to, from every node that is there. -/
theorem decides_afterAll (es : List (Edit α)) {r : Nat} (inside : r < (afterAll empty es).size)
    (n : Nat) : (afterAll empty es).Decides r n :=
  (sound_empty.afterAll es).decides inside n

/-- `c` has been moved from below `a` to below `b`, and is looked for from `a`. -/
theorem decides_afterAll_moved :
    let es : List (Edit String) := [.leaf "a", .leaf "b", .leaf "c", .addChildren 0 [1, 2],
      .removeChild 0 1, .addChild 1 2]
    0 < (afterAll empty es).size ∧ (afterAll empty es).Decides 0 2 :=
  ⟨by decide, decides_afterAll _ (by decide) 2⟩

end TurtleGraphics.Forest
