import TurtleGraphics.Proofs.Results
import TurtleGraphics.Tree.Description

/-!
The grammar of descriptions. Reading keeps a stack of the words that are open. It accepts just the
marks that the grammar derives, and there is one tree for these.
-/

namespace TurtleGraphics.Tree

mutual

inductive Derives : List Mark → Tree String → Prop
  | word (w : String) : Derives [.word w] (.node w [])
  | list (w : String) {ms : List Mark} {ts : List (Tree String)} (inside : DerivesAll ms ts) :
    Derives (.word w :: .opening :: (ms ++ [.closing])) (.node w ts)

inductive DerivesAll : List Mark → List (Tree String) → Prop
  | nil : DerivesAll [] []
  | cons {ms ns : List Mark} {t : Tree String} {ts : List (Tree String)} (first : Derives ms t)
    (rest : DerivesAll ns ts) : DerivesAll (ms ++ ns) (t :: ts)

end

open Description (Open)

variable {ms ns rest before : List Mark} {t u : Tree String} {ts us : List (Tree String)}
  {o : Open} {os : List Open}

theorem DerivesAll.append (left : DerivesAll ms ts) (right : DerivesAll ns us) :
    DerivesAll (ms ++ ns) (ts ++ us) := by
  induction ts generalizing ms with
  | nil =>
    cases left
    exact right
  | cons t ts ih =>
    cases left with
    | cons first rest =>
      rw [List.append_assoc]
      exact .cons first (ih rest)

theorem DerivesAll.snoc (left : DerivesAll ms ts) (last : Derives ns t) :
    DerivesAll (ms ++ ns) (ts ++ [t]) := by
  have one : DerivesAll (ns ++ []) [t] := .cons last .nil
  rw [List.append_nil] at one
  exact left.append one

/-- No tree is opened before these marks. -/
def Complete (rest : List Mark) : Prop :=
  rest.head? ≠ some .opening

theorem complete_closing (rest : List Mark) : Complete (.closing :: rest) := by
  simp [Complete]

theorem DerivesAll.complete (derived : DerivesAll ms ts) (complete : Complete rest) :
    Complete (ms ++ rest) := by
  cases derived with
  | nil => exact complete
  | cons first _ => cases first <;> simp [Complete]

def Description.Open.addAll (o : Open) (ts : List (Tree String)) : Open :=
  { o with children := ts.reverse ++ o.children }

theorem Description.Open.addAll_cons (o : Open) (t : Tree String) (ts : List (Tree String)) :
    o.addAll (t :: ts) = (o.add t).addAll ts := by
  simp [addAll, add]

theorem Description.Open.close_addAll (w : String) (ts : List (Tree String)) :
    (Open.addAll ⟨w, []⟩ ts).close = node w ts := by
  simp [addAll, close]

mutual

theorem Derives.read {ms rest : List Mark} {t : Tree String} (o : Open) (os : List Open)
    (complete : Complete rest) : Derives ms t →
      Description.read (o :: os) (ms ++ rest) = Description.read (o.add t :: os) rest
  | .word w => by
    cases rest with
    | nil => rfl
    | cons m rest =>
      cases m with
      | opening => exact absurd rfl complete
      | closing => rfl
      | word v => rfl
  | @Derives.list w inner ts inside => by
    have children := inside.read ⟨w, []⟩ (o :: os) (complete_closing rest)
    have marks : .word w :: .opening :: (inner ++ [.closing]) ++ rest =
        .word w :: .opening :: (inner ++ .closing :: rest) := by simp
    rw [marks]
    refine children.trans ?_
    rw [← Open.close_addAll w ts]
    rfl

theorem DerivesAll.read {ms rest : List Mark} {ts : List (Tree String)} (o : Open) (os : List Open)
    (complete : Complete rest) : DerivesAll ms ts →
      Description.read (o :: os) (ms ++ rest) = Description.read (o.addAll ts :: os) rest
  | .nil => rfl
  | .cons first others => by
    rw [List.append_assoc, first.read o os (others.complete complete),
      others.read (o.add _) os complete, Open.addAll_cons]

end

theorem Derives.read_alone (derived : Derives ms t) : Description.read [] ms = .ok (t, []) := by
  cases derived with
  | word w => rfl
  | @list w inner ts inside =>
    refine (inside.read ⟨w, []⟩ [] (complete_closing [])).trans ?_
    rw [← Open.close_addAll w ts]
    rfl

inductive Opened : List Open → List Mark → Prop
  | none : Opened [] []
  | one {o : Open} {os : List Open} {before inside : List Mark} (outer : Opened os before)
    (inner : DerivesAll inside o.children.reverse) :
    Opened (o :: os) (before ++ .word o.word :: .opening :: inside)

theorem Opened.push (opened : Opened os before) (w : String) :
    Opened (⟨w, []⟩ :: os) (before ++ [.word w, .opening]) :=
  .one opened .nil

theorem Opened.add (opened : Opened (o :: os) before) (derived : Derives ms t) :
    Opened (o.add t :: os) (before ++ ms) := by
  cases opened with
  | one outer inner =>
    rw [List.append_assoc]
    refine .one outer ?_
    rw [Open.add, List.reverse_cons]
    exact inner.snoc derived

theorem Opened.close (opened : Opened (o :: os) before) :
    ∃ outer own, before = outer ++ own ∧ Opened os outer ∧ Derives (own ++ [.closing]) o.close := by
  cases opened with
  | @one _ _ before inside outer inner => exact ⟨before, _, rfl, outer, .list o.word inner⟩

/-- Whatever is open, a tree that is read is derived from the marks that opened the words and those
used up since. -/
theorem Opened.derives (opened : Opened os before) (read : Description.read os ms = .ok (t, rest)) :
    ∃ used, ms = used ++ rest ∧ Derives (before ++ used) t := by
  fun_induction Description.read os ms generalizing before with
  | case1 | case2 | case3 | case4 => cases read
  | case5 o rest =>
    cases read
    obtain ⟨outer, own, rfl, none_open, derived⟩ := opened.close
    cases none_open
    exact ⟨[.closing], rfl, derived⟩
  | case6 o p os rest ih =>
    obtain ⟨outer, own, rfl, opened, derived⟩ := opened.close
    obtain ⟨used, rfl, whole⟩ := ih (opened.add derived) read
    exact ⟨.closing :: used, rfl, by simpa using whole⟩
  | case7 os w rest ih =>
    obtain ⟨used, rfl, whole⟩ := ih (opened.push w) read
    exact ⟨.word w :: .opening :: used, rfl, by simpa using whole⟩
  | case8 w rest =>
    cases read
    cases opened
    exact ⟨[.word w], rfl, .word w⟩
  | case9 o os w rest _ ih =>
    obtain ⟨used, rfl, whole⟩ := ih (opened.add (.word w)) read
    exact ⟨.word w :: used, rfl, by simpa using whole⟩

theorem read_eq_ok_iff : Description.read [] ms = .ok (t, []) ↔ Derives ms t := by
  constructor
  · intro read
    obtain ⟨used, rfl, derived⟩ := Opened.none.derives read
    simpa using derived
  · exact Derives.read_alone

/-- A text is read just if its marks are derived. -/
theorem tree_eq_ok_iff {text : String} :
    Description.tree text = .ok t ↔ Derives (Description.marks text) t := by
  rw [← read_eq_ok_iff, Description.tree, bind_eq_ok_iff]
  constructor
  · rintro ⟨⟨u, rest⟩, came, done⟩
    cases rest with
    | nil =>
      cases done
      exact came
    | cons m rest => cases done
  · intro came
    exact ⟨(t, []), came, rfl⟩

/-- The marks fix the tree. -/
theorem Derives.unique (derived : Derives ms t) (other : Derives ms u) : t = u := by
  have same := derived.read_alone.symm.trans other.read_alone
  cases same
  rfl

def Mark.word? : Mark → Option String
  | opening | closing => none
  | word text => some text

mutual

theorem Derives.preorder {ms : List Mark} {t : Tree String} :
    Derives ms t → t.preorder = ms.filterMap Mark.word?
  | .word w => rfl
  | .list w inside => by
    simp [Tree.preorder, inside.preorderAll, List.filterMap_cons, Mark.word?]

theorem DerivesAll.preorderAll {ms : List Mark} {ts : List (Tree String)} :
    DerivesAll ms ts → Tree.preorderAll ts = ms.filterMap Mark.word?
  | .nil => rfl
  | .cons first rest => by
    rw [Tree.preorderAll, first.preorder, rest.preorderAll, List.filterMap_append]

end

end TurtleGraphics.Tree
