import Mathlib.Data.List.Forall2
import TurtleGraphics.Proofs.Run.Variables

/-!
What a command comes to when a procedure has other names for its parameters: the same order, the
same further tasks under their other names, or a call whose variables have their other names.
-/

namespace TurtleGraphics

open TurtleGraphics.Tree (IsExpression IsCondition IsCommand IsProcedure IsProgram)

inductive Both {α β : Type} (R : α → β → Prop) :
    Except RuntimeError α → Except RuntimeError β → Prop
  | ok {a : α} {b : β} (related : R a b) : Both R (.ok a) (.ok b)
  | error (e : RuntimeError) : Both R (.error e) (.error e)

theorem Both.bind {α β γ δ : Type} {R : α → β → Prop} {S : γ → δ → Prop}
    {r : Except RuntimeError α} {s : Except RuntimeError β} {f : α → Except RuntimeError γ}
    {g : β → Except RuntimeError δ} (first : Both R r s)
    (next : ∀ a b, R a b → Both S (f a) (g b)) : Both S (r >>= f) (s >>= g) := by
  cases first with
  | ok related => exact next _ _ related
  | error e => exact .error e

theorem Both.of_eq {α : Type} {r s : Except RuntimeError α} (same : s = r) :
    Both (fun a b => b = a) r s := by
  cases same
  cases r with
  | ok a => exact .ok rfl
  | error e => exact .error e

/-- Each name has in the second table under its other name what it has in the first. -/
def Mirrors (r : Renaming) (b c : Bindings Float) : Prop :=
  ∀ x, r.Admits x → c.get? (r.spell x) = b.get? x

section Tables

variable {r : Renaming} {b c frame frame' : Bindings Float}

theorem Mirrors.empty (r : Renaming) : Mirrors r .empty .empty :=
  fun _ _ => rfl

theorem Mirrors.put (mirrors : Mirrors r b c) {name : String} (admitted : r.Admits name)
    (v : Float) : Mirrors r (b.put name v) (c.put (r.spell name) v) := by
  intro x hx
  rw [Bindings.get?_put, Bindings.get?_put]
  by_cases same : x = name
  · simp [same]
  · have apart : r.spell x ≠ r.spell name := fun e => same (r.distinct hx admitted e)
    rw [if_neg same, if_neg apart, mirrors x hx]

theorem Mirrors.has (mirrors : Mirrors r b c) {x : String} (admitted : r.Admits x) :
    c.has (r.spell x) = b.has x := by
  simp only [Bindings.has, mirrors x admitted]

structure Counterpart (r : Renaming) (frame frame' : Bindings Float) : Prop where
  mirrors : Mirrors r frame frame'
  moved : ∀ x, r.Admits x → frame.has x = false → r.spell x = x

theorem Counterpart.put (matched : Counterpart r frame frame') {name : String}
    (admitted : r.Admits name) (v : Float) :
    Counterpart r (frame.put name v) (frame'.put (r.spell name) v) := by
  constructor
  · exact matched.mirrors.put admitted v
  · intro x hx absent
    rw [Bindings.has_put, Bool.or_eq_false_iff] at absent
    exact matched.moved x hx absent.2

end Tables

structure Renaming.Fits (r : Renaming) (d : Tree Node) : Prop where
  admits : ∀ x ∈ d.mentionsOfDefinition, r.Admits x
  moves : ∀ x, r.Admits x → r.spell x ≠ x → x ∈ d.parameters

inductive Respelt : Tree Node → Tree Node → Prop
  | intro {d : Tree Node} {r : Renaming} (shape : IsProcedure d) (fits : r.Fits d) :
    Respelt d (d.renameDefinition r.spell)

theorem Respelt.refl {d : Tree Node} (shape : IsProcedure d) : Respelt d d := by
  have fits : Renaming.none.Fits d := ⟨fun _ _ => trivial, fun x _ moved => absurd rfl moved⟩
  have same := Respelt.intro shape fits
  rwa [show Renaming.none.spell = id from rfl, Tree.renameDefinition_id shape] at same

theorem Respelt.modify {ps : List (Tree Node)} (shapes : ∀ p ∈ ps, IsProcedure p) {i : Nat}
    {d : Tree Node} (defined : ps[i]? = some d) {r : Renaming} (fits : r.Fits d) :
    List.Forall₂ Respelt ps (ps.modify i (Tree.renameDefinition r.spell)) := by
  induction ps generalizing i with
  | nil => simp at defined
  | cons p ps ih =>
    have first : IsProcedure p := shapes p (by simp)
    have others : ∀ q ∈ ps, IsProcedure q := fun q member => shapes q (by simp [member])
    cases i with
    | zero =>
      obtain rfl : p = d := by simpa using defined
      have rest : List.Forall₂ Respelt ps ps :=
        List.forall₂_same.mpr fun q member => .refl (others q member)
      rw [List.modify_zero_cons]
      exact .cons (.intro first fits) rest
    | succ i =>
      rw [List.modify_succ_cons]
      exact .cons (.refl first) (ih others (by simpa using defined))

/-- The same procedures are there, and each is the same up to the names of its parameters. -/
def RespeltAll (procedures procedures' : Bindings (Tree Node)) : Prop :=
  ∀ name, Option.Rel Respelt (procedures.get? name) (procedures'.get? name)

theorem RespeltAll.put {procedures procedures' : Bindings (Tree Node)}
    (respelt : RespeltAll procedures procedures') (name : String) {d d' : Tree Node}
    (same : Respelt d d') : RespeltAll (procedures.put name d) (procedures'.put name d') := by
  intro other
  rw [Bindings.get?_put, Bindings.get?_put]
  split
  · exact .some same
  · exact respelt other

inductive Task.Alike (r : Renaming) : Task → Task → Prop
  | visit {t : Tree Node} (shape : IsCommand t) (covers : r.Covers t) :
    Alike r (.visit t) (.visit (t.rename r.spell))
  | times {count : Nat} {body : Tree Node} (shape : IsCommand body) (covers : r.Covers body) :
    Alike r (.times count body) (.times count (body.rename r.spell))
  | loop {condition body : Tree Node} (test : IsCondition condition)
    (seen : r.Covers condition) (shape : IsCommand body) (covers : r.Covers body) :
    Alike r (.loop condition body) (.loop (condition.rename r.spell) (body.rename r.spell))

inductive Entry : Bindings Float × Tree Node → Bindings Float × Tree Node → Prop
  | intro {frame frame' : Bindings Float} {body : Tree Node} {r : Renaming}
    (matched : Counterpart r frame frame') (shape : IsCommand body) (covers : r.Covers body) :
    Entry (frame, body) (frame', body.rename r.spell)

inductive Deed.Alike (r : Renaming) : Deed → Deed → Prop
  | order (o : Order) : Alike r (.order o) (.order o)
  | store {name : String} (admitted : r.Admits name) (x : Float) :
    Alike r (.store name x) (.store (r.spell name) x)
  | push {tasks tasks' : List Task} (each : List.Forall₂ (Task.Alike r) tasks tasks') :
    Alike r (.push tasks) (.push tasks')
  | define {procedures procedures' : Bindings (Tree Node)} {block block' : Tree Node}
    (noted : RespeltAll procedures procedures')
    (next : Task.Alike r (.visit block) (.visit block')) :
    Alike r (.define procedures block) (.define procedures' block')
  | call {frame frame' : Bindings Float} {body body' : Tree Node}
    (entry : Entry (frame, body) (frame', body')) : Alike r (.call frame body) (.call frame' body')

inductive RespeltProgram : Tree Node → Tree Node → Prop
  | intro {n list : Node} {block : Tree Node} {ps ps' : List (Tree Node)} (kind : n.kind = .program)
    (commands : IsCommand block) (each : List.Forall₂ Respelt ps ps') :
    RespeltProgram (.node n [block, .node list ps]) (.node n [block, .node list ps'])

namespace Machine

theorem bind_alike {r q : Renaming} {v w : View} (alike : View.Alike r v w)
    (ps : List (Tree Node)) {as : List (Tree Node)} (values : ∀ a ∈ as, IsExpression a)
    (covers : ∀ a ∈ as, r.Covers a) (admits : ∀ p ∈ ps, q.Admits p.value.text)
    {frame frame' : Bindings Float} (mirrors : Mirrors q frame frame') :
    Both (Mirrors q) (bind v frame ps as)
      (bind w frame' (ps.map (Tree.reword q.spell)) (as.map (Tree.rename r.spell))) := by
  induction ps generalizing as frame frame' with
  | nil => exact .ok mirrors
  | cons p ps ih =>
    obtain ⟨n, ts⟩ := p
    cases as with
    | nil => exact .ok mirrors
    | cons a as =>
      have value := alike.evaluate (values a (by simp)) (covers a (by simp))
      refine (Both.of_eq value).bind fun x y same => ?_
      cases same
      exact ih (fun b member => values b (by simp [member]))
        (fun b member => covers b (by simp [member]))
        (fun b member => admits b (by simp [member]))
        (mirrors.put (admits (.node n ts) (by simp)) x)

variable {procedures procedures' : Bindings (Tree Node)} {r : Renaming} {v w : View}

theorem prepare_alike (respelt : RespeltAll procedures procedures') (alike : View.Alike r v w)
    (n : Node) (name : Tree Node) (list : Node) {as : List (Tree Node)}
    (values : ∀ a ∈ as, IsExpression a) (covers : ∀ a ∈ as, r.Covers a) :
    Both Entry (prepare procedures v n [name, .node list as])
      (prepare procedures' w n [name, .node list (as.map (Tree.rename r.spell))]) := by
  rw [prepare, prepare, twoChildren_bind, twoChildren_bind]
  have known := respelt name.value.text
  dsimp only
  generalize procedures.get? name.value.text = found at known
  generalize procedures'.get? name.value.text = found' at known
  cases known with
  | none => exact .error _
  | some known =>
    cases known with
    | @intro q shape fits =>
      cases shape with
      | @definition d h own parameters body kind commands =>
        obtain ⟨list, ps⟩ := parameters
        have formal : ∀ p ∈ ps, q.Admits p.value.text := fun p member =>
          fits.admits _ (List.mem_append_left _ (List.mem_map_of_mem member))
        have inside : q.Covers body := fun x mentioned =>
          fits.admits x (List.mem_append_right _ mentioned)
        simp only [Tree.renameDefinition, twoChildren_bind, Tree.children, List.length_map]
        by_cases counted : ps.length = as.length
        · simp only [counted, ne_eq, not_true_eq_false, if_false]
          have bound := bind_alike alike ps values covers formal (Mirrors.empty q)
          generalize bind w .empty (ps.map (Tree.reword q.spell)) (as.map (Tree.rename r.spell)) =
            result at bound
          cases made : bind v .empty ps as with
          | ok frame =>
            rw [made] at bound
            cases bound with
            | ok mirrors =>
              refine .ok (.intro ⟨mirrors, fun x admitted absent => ?_⟩ commands inside)
              by_contra moved
              have known := (has_bind counted made).mpr (.inr (fits.moves x admitted moved))
              simp [known] at absent
          | error e =>
            rw [made] at bound
            cases bound with
            | error => exact .error e
        · simp only [counted, ne_eq, not_false_eq_true, if_true]
          exact .error _

theorem order_alike {given given' : Except RuntimeError Order} (same : given' = given) :
    Both (Deed.Alike r) (given.map .order) (given'.map .order) := by
  cases same
  cases given with
  | ok o => exact .ok (.order o)
  | error e => exact .error e

theorem deed_alike (respelt : RespeltAll procedures procedures') (alike : View.Alike r v w)
    {t : Tree Node} (shape : IsCommand t) (covers : r.Covers t) :
    Both (Deed.Alike r) (deed procedures v t) (deed procedures' w (t.rename r.spell)) := by
  cases shape with
  | @move n e kind value =>
    obtain ⟨renamed, below⟩ := covers.operator (by
      rcases kind with kind | kind | kind | kind <;> simp [kind])
    have given : w.operand n [e.rename r.spell] = v.operand n [e] :=
      alike.evaluate value (below _ (by simp))
    rw [renamed]
    obtain ⟨_, token⟩ := n
    rcases kind with rfl | rfl | rfl | rfl
    · exact order_alike (congrArg (Except.map _) given)
    · exact order_alike (congrArg (Except.map _) given)
    · exact order_alike (congrArg (Except.map _) given)
    · exact order_alike (congrArg (Except.map _) given)
  | @bare n kind =>
    obtain ⟨renamed, -⟩ := covers.operator (by
      rcases kind with kind | kind | kind | ⟨c, kind⟩ <;> simp [kind])
    rw [renamed]
    obtain ⟨_, token⟩ := n
    rcases kind with rfl | rfl | rfl | ⟨c, rfl⟩
    · exact .ok (.order _)
    · exact .ok (.order _)
    · exact .ok (.order _)
    · exact .ok (.order _)
  | @jump n x y kind first second =>
    obtain ⟨renamed, below⟩ := covers.operator (by simp [kind])
    have one := alike.evaluate first (below _ (by simp))
    have two := alike.evaluate second (below _ (by simp))
    have given :
        (do
          let a ← w.evaluate (x.rename r.spell)
          let b ← w.evaluate (y.rename r.spell)
          return Order.jumpTo a b) =
        (do
          let a ← v.evaluate x
          let b ← v.evaluate y
          return Order.jumpTo a b) := by
      rw [one, two]
    rw [renamed]
    obtain ⟨_, token⟩ := n
    obtain rfl := kind
    exact order_alike given
  | @color n red green blue kind first second third =>
    obtain ⟨renamed, below⟩ := covers.operator (by simp [kind])
    have one := alike.channel first (below _ (by simp))
    have two := alike.channel second (below _ (by simp))
    have three := alike.channel third (below _ (by simp))
    have given :
        (do
          let a ← w.channel (red.rename r.spell)
          let b ← w.channel (green.rename r.spell)
          let c ← w.channel (blue.rename r.spell)
          return Order.colorRgb (View.pack a b c)) =
        (do
          let a ← v.channel red
          let b ← v.channel green
          let c ← v.channel blue
          return Order.colorRgb (View.pack a b c)) := by
      rw [one, two, three]
    rw [renamed]
    obtain ⟨_, token⟩ := n
    obtain rfl := kind
    exact order_alike given
  | @assign n target e kind name value =>
    obtain ⟨renamed, below⟩ := covers.operator (by simp [kind])
    have given := alike.evaluate value (below _ (by simp))
    have admitted := below target (by simp) _ (Tree.mem_mentions_of_name name)
    rw [renamed]
    obtain ⟨_, token⟩ := n
    obtain rfl := kind
    obtain ⟨⟨_, written⟩, _⟩ := target
    obtain rfl := name
    refine (Both.of_eq given).bind fun x y same => ?_
    cases same
    exact .ok (.store admitted x)
  | @times n e body kind count again =>
    obtain ⟨renamed, below⟩ := covers.operator (by simp [kind])
    have given := alike.evaluate count (below _ (by simp))
    have inside : r.Covers body := below _ (by simp)
    rw [renamed]
    obtain ⟨_, token⟩ := n
    obtain rfl := kind
    refine (Both.of_eq given).bind fun x y same => ?_
    cases same
    exact .ok (.push (.cons (.times again inside) .nil))
  | @loop n c body kind condition again =>
    obtain ⟨renamed, below⟩ := covers.operator (by simp [kind])
    have test : r.Covers c := below _ (by simp)
    have inside : r.Covers body := below _ (by simp)
    rw [renamed]
    obtain ⟨_, token⟩ := n
    obtain rfl := kind
    exact .ok (.push (.cons (.loop condition test again inside) .nil))
  | @branch n c body kind condition chosen =>
    obtain ⟨renamed, below⟩ := covers.operator (by simp [kind])
    have given := alike.holds condition (below _ (by simp))
    have inside : r.Covers body := below _ (by simp)
    rw [renamed]
    obtain ⟨_, token⟩ := n
    obtain rfl := kind
    refine (Both.of_eq given).bind fun b b' same => ?_
    cases same
    cases b with
    | false => exact .ok (.push .nil)
    | true => exact .ok (.push (.cons (.visit chosen inside) .nil))
  | @branchElse n c body otherwise kind condition chosen unchosen =>
    obtain ⟨renamed, below⟩ := covers.operator (by simp [kind])
    have given := alike.holds condition (below _ (by simp))
    have inside : r.Covers body := below _ (by simp)
    have beside : r.Covers otherwise := below _ (by simp)
    rw [renamed]
    obtain ⟨_, token⟩ := n
    obtain rfl := kind
    refine (Both.of_eq given).bind fun b b' same => ?_
    cases same
    cases b with
    | false => exact .ok (.push (.cons (.visit unchosen beside) .nil))
    | true => exact .ok (.push (.cons (.visit chosen inside) .nil))
  | @call n name arguments kind values =>
    obtain ⟨list, as⟩ := arguments
    have each : ∀ a ∈ as, r.Covers a := fun a member => covers.argument kind member
    rw [Tree.rename_call r.spell kind]
    obtain ⟨_, token⟩ := n
    obtain rfl := kind
    refine (prepare_alike respelt alike _ name list values each).bind fun entry entry' same => ?_
    exact .ok (.call same)
  | @block n ts kind commands =>
    obtain ⟨renamed, below⟩ := covers.operator (by simp [kind])
    rw [renamed]
    obtain ⟨_, token⟩ := n
    obtain rfl := kind
    refine .ok (.push ?_)
    rw [List.map_map, List.forall₂_map_left_iff, List.forall₂_map_right_iff, List.forall₂_same]
    intro t member
    exact .visit (commands t member) (below t member)

theorem round_alike (alike : View.Alike r v w) {condition body : Tree Node}
    (test : IsCondition condition) (seen : r.Covers condition) (shape : IsCommand body)
    (covers : r.Covers body) :
    Both (Deed.Alike r) (round v condition body)
      (round w (condition.rename r.spell) (body.rename r.spell)) := by
  refine (Both.of_eq (alike.holds test seen)).bind fun b b' same => ?_
  cases same
  cases b with
  | false => exact .ok (.push .nil)
  | true =>
    have again : Task.Alike r (.loop condition body) _ := .loop test seen shape covers
    exact .ok (.push (.cons (.visit shape covers) (.cons again .nil)))

theorem defineAll_alike {ps ps' : List (Tree Node)} (each : List.Forall₂ Respelt ps ps')
    (respelt : RespeltAll procedures procedures') :
    Both RespeltAll (defineAll procedures ps) (defineAll procedures' ps') := by
  induction each generalizing procedures procedures' with
  | nil => exact .ok respelt
  | cons first _ ih =>
    have same := first
    cases first with
    | @intro q shape fits =>
      cases shape with
      | @definition d h own parameters body kind commands =>
        obtain ⟨list, ps⟩ := parameters
        unfold defineAll
        dsimp only [Tree.renameDefinition]
        rw [if_neg (by simp [kind]), if_neg (by simp [kind])]
        exact ih (respelt.put own.value.text same)

theorem program_alike (respelt : RespeltAll procedures procedures') {t t' : Tree Node}
    (program : RespeltProgram t t') :
    Both (Deed.Alike .none) (deed procedures v t) (deed procedures' w t') := by
  cases program with
  | @intro n list block ps ps' kind commands each =>
    have next : Task.Alike .none (.visit block) (.visit (block.rename id)) :=
      .visit commands fun _ _ => trivial
    rw [Tree.rename_id] at next
    obtain ⟨_, token⟩ := n
    obtain rfl := kind
    exact (defineAll_alike each respelt).bind fun noted noted' same => .ok (.define same next)

end Machine

end TurtleGraphics
