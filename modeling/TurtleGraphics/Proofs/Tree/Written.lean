import Mathlib.Data.List.Infix
import TurtleGraphics.Proofs.Tree.Grammar
import TurtleGraphics.Proofs.Tree.Word
import TurtleGraphics.Tree.Written

/-!
A tree of plain words is what is read from its description, and no other tree has the same outline.
-/

namespace TurtleGraphics

theorem toList_pushn (text : String) (c : Char) (n : Nat) :
    (text.pushn c n).toList = text.toList ++ List.replicate n c := by
  induction n with
  | zero => exact (List.append_nil _).symm
  | succ n ih =>
    change ((text.pushn c n).push c).toList = _
    rw [String.toList_push, ih, List.replicate_succ', List.append_assoc]

namespace Tree

open Description

mutual

def marks : Tree String → List Mark
  | node w [] => [.word w]
  | node w (t :: ts) => .word w :: .opening :: (t.marks ++ (marksAll ts ++ [.closing]))

def marksAll : List (Tree String) → List Mark
  | [] => []
  | t :: ts => t.marks ++ marksAll ts

end

def AllPlain (t : Tree String) : Prop :=
  ∀ w ∈ t.preorder, IsPlain w

theorem closes_describeRest (ts : List (Tree String)) {rest : List Char} (closes : Closes rest) :
    Closes ((describeRest ts).toList ++ rest) := by
  cases ts with
  | nil => exact closes
  | cons t ts =>
    rw [describeRest, String.toList_append, String.toList_append]
    exact closes_cons rfl

mutual

theorem marksFrom_describe {rest : List Char} (closes : Closes rest) :
    (t : Tree String) → (∀ w ∈ t.preorder, IsPlain w) →
      marksFrom [] (t.describe.toList ++ rest) = t.marks ++ marksFrom [] rest
  | node w [], plain => by
    exact marksFrom_word (plain w (by simp [preorder])) closes
  | node w (t :: ts), plain => by
    have word := plain w (by simp [preorder])
    have first : ∀ w ∈ t.preorder, IsPlain w := fun w member =>
      plain w (by simp [preorder, preorderAll, member])
    have others : ∀ w ∈ preorderAll ts, IsPlain w := fun w member =>
      plain w (by simp [preorder, preorderAll, member])
    have shut : Closes (')' :: rest) := closes_cons rfl
    have chars : (describe (node w (t :: ts))).toList ++ rest =
        w.toList ++ '(' :: (t.describe.toList ++ ((describeRest ts).toList ++ ')' :: rest)) := by
      simp [describe]
    rw [chars, marksFrom_word word (closes_cons rfl), marksFrom_opening,
      marksFrom_describe (closes_describeRest ts shut) t first,
      marksFrom_describeRest shut ts others, marksFrom_closing]
    simp [marks]

theorem marksFrom_describeRest {rest : List Char} (closes : Closes rest) :
    (ts : List (Tree String)) → (∀ w ∈ preorderAll ts, IsPlain w) →
      marksFrom [] ((describeRest ts).toList ++ rest) = marksAll ts ++ marksFrom [] rest
  | [], _ => rfl
  | t :: ts, plain => by
    have first : ∀ w ∈ t.preorder, IsPlain w := fun w member =>
      plain w (by simp [preorderAll, member])
    have others : ∀ w ∈ preorderAll ts, IsPlain w := fun w member =>
      plain w (by simp [preorderAll, member])
    have chars : (describeRest (t :: ts)).toList ++ rest =
        ' ' :: (t.describe.toList ++ ((describeRest ts).toList ++ rest)) := by
      simp [describeRest]
    rw [chars, marksFrom_gap (.inr rfl), marksFrom_describe (closes_describeRest ts closes) t first,
      marksFrom_describeRest closes ts others]
    simp [marksAll]

end

mutual

theorem derives_marks : (t : Tree String) → Derives t.marks t
  | node w [] => .word w
  | node w (t :: ts) => by
    have inside := DerivesAll.cons (derives_marks t) (derivesAll_marks ts)
    rw [marks, ← List.append_assoc]
    exact .list w inside

theorem derivesAll_marks : (ts : List (Tree String)) → DerivesAll (marksAll ts) ts
  | [] => .nil
  | t :: ts => .cons (derives_marks t) (derivesAll_marks ts)

end

/-- A tree of plain words is read back from its description. -/
theorem tree_describe {t : Tree String} (plain : t.AllPlain) :
    Description.tree t.describe = .ok t := by
  have marks : Description.marks t.describe = t.marks := by
    have read := marksFrom_describe closes_nil t plain
    rw [List.append_nil] at read
    exact read.trans (List.append_nil t.marks)
  rw [tree_eq_ok_iff, marks]
  exact derives_marks t

theorem describe_injective {t u : Tree String} (plain : t.AllPlain) (plain' : u.AllPlain)
    (same : t.describe = u.describe) : t = u := by
  have read := tree_describe plain
  rw [same, tree_describe plain'] at read
  cases read
  rfl

theorem toList_margin (width : Nat) : (margin width).toList = List.replicate width ' ' :=
  toList_pushn "" ' ' width

/-- The characters do not start with so wide a margin. -/
def Dedented (width : Nat) (rest : List Char) : Prop :=
  ¬ List.replicate width ' ' <+: rest

theorem Dedented.mono {width wider : Nat} {rest : List Char} (dedented : Dedented width rest)
    (le : width ≤ wider) : Dedented wider rest := by
  intro start
  apply dedented
  obtain ⟨more, rfl⟩ := Nat.exists_eq_add_of_le le
  rw [List.replicate_add] at start
  exact (List.prefix_append _ _).trans start

theorem dedented_word {w : String} (plain : IsPlain w) (width : Nat) (rest : List Char) :
    Dedented (width + 2) (List.replicate width ' ' ++ (w.toList ++ rest)) := by
  have nonempty : w.toList ≠ [] := by simpa using plain.nonempty
  obtain ⟨c, cs, same⟩ := List.exists_cons_of_ne_nil nonempty
  have other : c ≠ ' ' := by
    rintro rfl
    have blank := plain.unseparated ' ' (by simp [same])
    exact absurd blank (by decide)
  intro start
  rw [List.replicate_add, List.prefix_append_right_inj, same] at start
  exact other (List.cons_prefix_cons.mp start).1.symm

theorem dedented_outlineAll (depth : Nat) {ts : List (Tree String)}
    (plain : ∀ w ∈ preorderAll ts, IsPlain w) {rest : List Char}
    (dedented : Dedented (2 * depth) rest) :
    Dedented (2 * (depth + 1)) ((outlineAll depth ts).toList ++ rest) := by
  cases ts with
  | nil => exact dedented.mono (by omega)
  | cons t ts =>
    obtain ⟨w, us⟩ := t
    have word := plain w (by simp [preorderAll, preorder])
    have starts := dedented_word word (2 * depth)
      ("\n".toList ++ ((outlineAll (depth + 1) us).toList ++
        ((outlineAll depth ts).toList ++ rest)))
    simpa [outlineAll, outlineFrom, toList_margin, Nat.mul_add] using starts

theorem line_injective {w v x y : List Char} (line : '\n' ∉ w) (line' : '\n' ∉ v)
    (same : w ++ '\n' :: x = v ++ '\n' :: y) : w = v ∧ x = y := by
  induction w generalizing v with
  | nil =>
    cases v with
    | nil => exact ⟨rfl, (List.cons.inj same).2⟩
    | cons c v =>
      obtain ⟨rfl, -⟩ := List.cons.inj same
      simp at line'
  | cons c w ih =>
    cases v with
    | nil =>
      obtain ⟨rfl, -⟩ := List.cons.inj same
      simp at line
    | cons d v =>
      obtain ⟨rfl, rest⟩ := List.cons.inj same
      rw [List.mem_cons, not_or] at line line'
      obtain ⟨rfl, after⟩ := ih line.2 line'.2 rest
      exact ⟨rfl, after⟩

theorem isPlain_line {w : String} (plain : IsPlain w) : '\n' ∉ w.toList := by
  intro member
  exact absurd (plain.unseparated '\n' member) (by decide)

/-- Where there is a child the line is indented. -/
theorem not_dedented {depth : Nat} {t : Tree String} {ts : List (Tree String)}
    {rest rest' : List Char} (same : rest = (outlineAll depth (t :: ts)).toList ++ rest') :
    ¬ Dedented (2 * depth) rest := by
  rw [Dedented, not_not, same, outlineAll]
  simp only [String.toList_append, toList_margin, List.append_assoc]
  exact List.prefix_append _ _

mutual

/-- Where the lines of a tree end is seen from the margin of the line that follows. -/
theorem outlineFrom_injective {depth : Nat} {rest rest' : List Char}
    (dedented : Dedented (2 * depth) rest) (dedented' : Dedented (2 * depth) rest') :
    (t u : Tree String) → (∀ w ∈ t.preorder, IsPlain w) → (∀ w ∈ u.preorder, IsPlain w) →
      (t.outlineFrom depth).toList ++ rest = (u.outlineFrom depth).toList ++ rest' →
        t = u ∧ rest = rest'
  | node w ts, node v us, plain, plain', same => by
    have line := isPlain_line (plain w (by simp [preorder]))
    have line' := isPlain_line (plain' v (by simp [preorder]))
    simp only [outlineFrom, String.toList_append, List.append_assoc] at same
    obtain ⟨word, below⟩ := line_injective line line' same
    obtain ⟨rfl, rfl⟩ := outlineAll_injective dedented dedented' ts us
      (fun x member => plain x (by simp [preorder, member]))
      (fun x member => plain' x (by simp [preorder, member])) below
    exact ⟨by rw [String.toList_injective word], rfl⟩

theorem outlineAll_injective {depth : Nat} {rest rest' : List Char}
    (dedented : Dedented (2 * depth) rest) (dedented' : Dedented (2 * depth) rest') :
    (ts us : List (Tree String)) → (∀ w ∈ preorderAll ts, IsPlain w) →
      (∀ w ∈ preorderAll us, IsPlain w) →
      (outlineAll depth ts).toList ++ rest = (outlineAll depth us).toList ++ rest' →
        ts = us ∧ rest = rest'
  | [], [], _, _, same => ⟨rfl, same⟩
  | [], _ :: _, _, _, same => absurd dedented (not_dedented same)
  | _ :: _, [], _, _, same => absurd dedented' (not_dedented same.symm)
  | t :: ts, u :: us, plain, plain', same => by
    have others : ∀ x ∈ preorderAll ts, IsPlain x :=
      fun x member => plain x (by simp [preorderAll, member])
    have others' : ∀ x ∈ preorderAll us, IsPlain x :=
      fun x member => plain' x (by simp [preorderAll, member])
    simp only [outlineAll, String.toList_append, List.append_assoc, toList_margin,
      List.append_cancel_left_eq] at same
    obtain ⟨rfl, below⟩ := outlineFrom_injective (dedented_outlineAll depth others dedented)
      (dedented_outlineAll depth others' dedented') t u
      (fun x member => plain x (by simp [preorderAll, member]))
      (fun x member => plain' x (by simp [preorderAll, member])) same
    obtain ⟨rfl, rfl⟩ := outlineAll_injective dedented dedented' ts us others others' below
    exact ⟨rfl, rfl⟩

end

/-- The outline fixes a tree of plain words. -/
theorem outline_injective {t u : Tree String} (plain : t.AllPlain) (plain' : u.AllPlain)
    (same : t.outline = u.outline) : t = u := by
  have ends : Dedented (2 * 1) [] := by
    intro start
    exact absurd start.length_le (by simp)
  have whole : (t.outlineFrom 1).toList ++ [] = (u.outlineFrom 1).toList ++ [] :=
    congrArg (·.toList ++ []) same
  exact (outlineFrom_injective ends ends t u plain plain' whole).1

end Tree

end TurtleGraphics
