import TurtleGraphics.Proofs.Forest.Planting
import TurtleGraphics.Proofs.Tree.Grammar

/-!
Reading by descent. A call reads one tree and makes its nodes as it goes; it comes to no node at a
closing parenthesis, and neither at the end of the marks. The children of a word are read by one
call after another up to the first that comes to no node, and before each call it is an error if the
marks have ended. A call that goes on has used up a mark, so the calls end, and they come to what
comes of reading a tree whole and planting it then.
-/

namespace TurtleGraphics.Tree.Description

/-- What a call comes to: a result, the marks that are left and the forest as it is then, or an
error. It comes to nothing if the steps run out. -/
abbrev Came (β : Type) := Option (Except Error (β × List Mark × Forest String))

def Came.andThen {β γ : Type} (came : Came β) (next : β → List Mark → Forest String → Came γ) :
    Came γ :=
  match came with
  | some (.ok (b, rest, f)) => next b rest f
  | some (.error e) => some (.error e)
  | none => none

def making (w : String) (cs : List Nat) (rest : List Mark) (f : Forest String) :
    Came (Option Nat) :=
  match f.node w cs with
  | .ok (h, f) => some (.ok (some h, rest, f))
  | .error err => some (.error (.refused err))

mutual

def item : Nat → List Mark → Forest String → Came (Option Nat)
  | 0, _, _ => none
  | _ + 1, [], f => some (.ok (none, [], f))
  | _ + 1, .opening :: rest, _ => some (.error (.unexpectedOpening rest))
  | _ + 1, .closing :: rest, f => some (.ok (none, rest, f))
  | steps + 1, .word w :: .opening :: rest, f => (items steps [] rest f).andThen (making w)
  | _ + 1, .word w :: rest, f => making w [] rest f

def items : Nat → List Nat → List Mark → Forest String → Came (List Nat)
  | 0, _, _, _ => none
  | _ + 1, _, [], _ => some (.error .unclosed)
  | steps + 1, cs, m :: ms, f => (item steps (m :: ms) f).andThen fun
    | some c, rest, f => items steps (cs ++ [c]) rest f
    | none, rest, f => some (.ok (cs, rest, f))

end

def descent (steps : Nat) (ms : List Mark) : Option (Except Error (Nat × Forest String)) :=
  match item steps ms .empty with
  | some (.ok (some r, [], f)) => some (.ok (r, f))
  | some (.ok (some _, m :: ms, _)) => some (.error (.leftover (m :: ms)))
  | some (.ok (none, _, _)) => some (.error .empty)
  | some (.error e) => some (.error e)
  | none => none

variable {f g k : Forest String} {ms rest : List Mark} {t : Tree String} {us : List (Tree String)}

inductive Agrees (f : Forest String) : List Mark → Came (Option Nat) → Prop
  | tree {ms rest : List Mark} {t : Tree String} {h : Nat} {g : Forest String}
    (planted : f.plant t = .ok (h, g)) (alone : read [] ms = .ok (t, rest))
    (inside : ∀ o os, read (o :: os) ms = read (o.add t :: os) rest)
    (shorter : rest.length < ms.length) : Agrees f ms (some (.ok (some h, rest, g)))
  | closing (rest : List Mark) : Agrees f (.closing :: rest) (some (.ok (none, rest, f)))
  | ending : Agrees f [] (some (.ok (none, [], f)))
  | failed {ms : List Mark} {e : Error} (same : ∀ os, read os ms = .error e) :
    Agrees f ms (some (.error e))

inductive AgreesAll (f : Forest String) (ts : List (Tree String)) :
    List Mark → Came (List Nat) → Prop
  | closed {ms rest : List Mark} {us : List (Tree String)} {hs : List Nat} {g : Forest String}
    (planted : f.plantAll (ts ++ us) = .ok (hs, g))
    (inside : ∀ o os, read (o :: os) ms = read (o.addAll us :: os) (.closing :: rest))
    (shorter : rest.length < ms.length) : AgreesAll f ts ms (some (.ok (hs, rest, g)))
  | failed {ms : List Mark} {e : Error} (inside : ∀ o os, read (o :: os) ms = .error e) :
    AgreesAll f ts ms (some (.error e))

theorem read_opening (os : List Open) (rest : List Mark) :
    read os (.opening :: rest) = .error (.unexpectedOpening rest) := by
  cases os <;> rfl

theorem read_word_opening (os : List Open) (w : String) (rest : List Mark) :
    read os (.word w :: .opening :: rest) = read (⟨w, []⟩ :: os) rest := by
  cases os <;> rfl

/-- The node of a word is made when its children have been. -/
theorem making_eq (sound : f.Sound) (w : String) {hs : List Nat}
    (below : f.plantAll us = .ok (hs, g)) (rest : List Mark) :
    ∃ h k, f.plant (.node w us) = .ok (h, k) ∧
      making w hs rest g = some (.ok (some h, rest, k)) := by
  have whole : f.plant (.node w us) = g.node w hs := by
    rw [Forest.plant, below]
    rfl
  obtain ⟨h, k, planted, -, -⟩ := sound.exists_plant (.node w us)
  rw [planted] at whole
  exact ⟨h, k, planted, by simp only [making, ← whole]⟩

theorem agrees_word (sound : f.Sound) (w : String) (complete : Complete rest) :
    Agrees f (.word w :: rest) (making w [] rest f) := by
  have none_below : f.plantAll [] = .ok ([], f) := rfl
  obtain ⟨h, k, planted, made⟩ := making_eq sound w none_below rest
  rw [made]
  refine .tree planted ?_ ?_ (Nat.lt_succ_self _)
  · cases rest with
    | nil => rfl
    | cons m rest => cases m <;> first | rfl | exact absurd rfl complete
  · intro o os
    exact (Derives.word w).read o os complete

theorem agrees_word_opening (sound : f.Sound) (w : String) {came : Came (List Nat)}
    (inside : AgreesAll f [] rest came) :
    Agrees f (.word w :: .opening :: rest) (came.andThen (making w)) := by
  cases inside with
  | @closed left us hs g planted inside shorter =>
    rw [List.nil_append] at planted
    obtain ⟨h, k, planted, made⟩ := making_eq sound w planted left
    change Agrees f _ (making w hs left g)
    rw [made]
    refine .tree planted ?_ ?_ ?_
    · rw [read_word_opening, inside, ← Open.close_addAll w us]
      rfl
    · intro o os
      rw [read_word_opening, inside, ← Open.close_addAll w us]
      rfl
    · simp only [List.length_cons]
      omega
  | @failed e inside =>
    refine .failed fun os => ?_
    rw [read_word_opening, inside]

theorem agreesAll_andThen {ts : List (Tree String)} {hs : List Nat} {m : Mark}
    {came : Came (Option Nat)} {next : Option Nat → List Mark → Forest String → Came (List Nat)}
    (before : f.plantAll ts = .ok (hs, g)) (one : Agrees g (m :: ms) came)
    (stop : ∀ rest k, next none rest k = some (.ok (hs, rest, k)))
    (others : ∀ {t c k rest}, rest.length ≤ ms.length →
      f.plantAll (ts ++ [t]) = .ok (hs ++ [c], k) →
        AgreesAll f (ts ++ [t]) rest (next (some c) rest k)) :
    AgreesAll f ts (m :: ms) (came.andThen next) := by
  cases one with
  | @tree _ rest t h k planted alone inside shorter =>
    have less : rest.length ≤ ms.length := Nat.lt_succ_iff.mp shorter
    have further := others less (Forest.plantAll_snoc before planted)
    change AgreesAll f ts _ (next (some h) rest k)
    generalize next (some h) rest k = came at further ⊢
    cases further with
    | @closed left us ks l planted inside' shorter' =>
      rw [List.append_assoc] at planted
      refine .closed planted ?_ (by simp only [List.length_cons]; omega)
      intro o os
      rw [inside, inside', ← Open.addAll_cons]
      rfl
    | failed inside' =>
      refine .failed fun o os => ?_
      rw [inside, inside']
  | closing rest =>
    change AgreesAll f ts _ (next none _ g)
    rw [stop]
    rw [← List.append_nil ts] at before
    exact .closed before (fun o os => rfl) (Nat.lt_succ_self _)
  | failed same => exact .failed fun o os => same (o :: os)

mutual

theorem agrees_item {f : Forest String} (sound : f.Sound) :
    (steps : Nat) → (ms : List Mark) → 2 * ms.length < steps → Agrees f ms (item steps ms f)
  | 0, _, enough => absurd enough (Nat.not_lt_zero _)
  | _ + 1, [], _ => .ending
  | _ + 1, .opening :: rest, _ => .failed fun os => read_opening os rest
  | _ + 1, .closing :: rest, _ => .closing rest
  | steps + 1, .word w :: .opening :: rest, enough => by
    have room : 2 * rest.length + 1 < steps := by
      simp only [List.length_cons] at enough
      omega
    have none_planted : f.plantAll [] = .ok ([], f) := rfl
    exact agrees_word_opening sound w (agrees_items sound steps rest none_planted room)
  | _ + 1, [.word w], _ => agrees_word sound w (by simp [Complete])
  | _ + 1, .word w :: .closing :: rest, _ => agrees_word sound w (complete_closing rest)
  | _ + 1, .word w :: .word v :: rest, _ => agrees_word sound w (by simp [Complete])

theorem agrees_items {f g : Forest String} {ts : List (Tree String)} {hs : List Nat}
    (sound : f.Sound) :
    (steps : Nat) → (ms : List Mark) → f.plantAll ts = .ok (hs, g) → 2 * ms.length + 1 < steps →
      AgreesAll f ts ms (items steps hs ms g)
  | 0, _, _, enough => absurd enough (Nat.not_lt_zero _)
  | _ + 1, [], _, _ => .failed fun _ _ => rfl
  | steps + 1, m :: ms, before, enough => by
    have room : 2 * ms.length + 2 < steps := by
      simp only [List.length_cons] at enough
      omega
    apply agreesAll_andThen before
    · exact agrees_item (sound.plantAll before) steps (m :: ms) room
    · intro rest k
      rfl
    · intro t c k rest less more
      exact agrees_items sound steps rest more (by omega)

end

/-- Two steps for each mark are enough, and one more at the end. -/
theorem descent_eq (text : String) {steps : Nat} (enough : 2 * (marks text).length < steps) :
    descent steps (marks text) = some (Forest.ofDescription text) := by
  have came := agrees_item Forest.sound_empty steps (marks text) enough
  unfold descent Forest.ofDescription tree
  generalize item steps (marks text) .empty = result at came ⊢
  generalize marks text = ms at came ⊢
  cases came with
  | @tree _ rest t h g planted alone =>
    rw [alone]
    cases rest with
    | nil => simp [bind, Except.bind, pure, Except.pure, planted]
    | cons m rest => rfl
  | closing => rfl
  | ending => rfl
  | failed same =>
    rw [same]
    rfl

end TurtleGraphics.Tree.Description
