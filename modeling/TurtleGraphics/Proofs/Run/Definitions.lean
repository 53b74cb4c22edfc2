import Mathlib.Data.List.Nodup
import TurtleGraphics.Proofs.Run.Shape
import TurtleGraphics.Proofs.Run.Step
import TurtleGraphics.Proofs.Run.Variables

/-!
The procedures of a program and what its commands are made of. Of several definitions with one name
the last one is noted. A command comes to parts of itself or to a call, and never to definitions, so
once the procedures are noted their table stays as it is.
-/

namespace TurtleGraphics

open TurtleGraphics.Tree (IsCondition IsCommand IsProcedure IsProgram)

namespace Tree

def title? : Tree Node → Option String
  | .node _ [.node _ [own, _], _] => some own.value.text
  | _ => none

def body : Tree Node → Tree Node
  | .node _ [_, body] => body
  | t => t

def called? : Tree Node → Option String
  | .node n (name :: _) => if n.kind = .call then some name.value.text else none
  | _ => none

theorem IsProcedure.body {d : Tree Node} (shape : IsProcedure d) : IsCommand d.body := by
  cases shape with
  | definition _ commands => exact commands

def lastNamed (name : String) (ds : List (Tree Node)) : Option (Tree Node) :=
  ds.reverse.find? (·.title? == some name)

def definition? (t : Tree Node) (name : String) : Option (Tree Node) :=
  lastNamed name t.definitions

/-- The definitions that no later one with the same name overrides. -/
def lasting : List (Tree Node) → List (Tree Node)
  | [] => []
  | d :: ds => if d.title? ∈ ds.map title? then lasting ds else d :: lasting ds

theorem lastNamed_cons (name : String) (d : Tree Node) (ds : List (Tree Node)) :
    lastNamed name (d :: ds) =
      (lastNamed name ds).or (if d.title? = some name then some d else none) := by
  simp [lastNamed, List.find?_append, List.find?_singleton]

theorem lastNamed_eq_none {name : String} {ds : List (Tree Node)} :
    lastNamed name ds = none ↔ some name ∉ ds.map title? := by
  simp [lastNamed]

theorem mem_of_lastNamed {name : String} {ds : List (Tree Node)} {d : Tree Node}
    (found : lastNamed name ds = some d) : d ∈ ds ∧ d.title? = some name := by
  have member := List.mem_of_find?_eq_some found
  have named := List.find?_some found
  exact ⟨List.mem_reverse.mp member, by simpa using named⟩

/-- Where no two definitions have one name, a definition is the last one of its name. -/
theorem lastNamed_eq_some {name : String} {ds : List (Tree Node)} (distinct : (ds.map title?).Nodup)
    {d : Tree Node} : lastNamed name ds = some d ↔ d ∈ ds ∧ d.title? = some name := by
  constructor
  · exact mem_of_lastNamed
  · rintro ⟨member, named⟩
    cases found : lastNamed name ds with
    | none =>
      have missing := lastNamed_eq_none.mp found
      exact absurd (named ▸ List.mem_map_of_mem member) missing
    | some e =>
      obtain ⟨other, same⟩ := mem_of_lastNamed found
      rw [List.inj_on_of_nodup_map distinct other member (same.trans named.symm)]

theorem lasting_sublist (ds : List (Tree Node)) : (lasting ds).Sublist ds := by
  induction ds with
  | nil => exact .slnil
  | cons d ds ih =>
    unfold lasting
    split
    · exact ih.cons d
    · exact ih.cons_cons d

theorem nodup_lasting (ds : List (Tree Node)) : ((lasting ds).map title?).Nodup := by
  induction ds with
  | nil => exact .nil
  | cons d ds ih =>
    unfold lasting
    split
    · exact ih
    · rename_i fresh
      have among := ((lasting_sublist ds).map title?).subset
      exact List.nodup_cons.mpr ⟨fun member => fresh (among member), ih⟩

theorem lastNamed_lasting (name : String) (ds : List (Tree Node)) :
    lastNamed name (lasting ds) = lastNamed name ds := by
  induction ds with
  | nil => rfl
  | cons d ds ih =>
    rw [lastNamed_cons]
    unfold lasting
    split
    · rename_i overridden
      rw [ih]
      by_cases named : d.title? = some name
      · cases found : lastNamed name ds with
        | none => exact absurd (named ▸ overridden) (lastNamed_eq_none.mp found)
        | some e => rfl
      · simp [named]
    · rw [lastNamed_cons, ih]

/-- The order of definitions that are not overridden does not matter. -/
theorem lastNamed_of_perm {ds es : List (Tree Node)} (rearranged : es.Perm (lasting ds))
    (name : String) : lastNamed name es = lastNamed name ds := by
  have distinct : (es.map title?).Nodup := (rearranged.map title?).nodup_iff.mpr (nodup_lasting ds)
  rw [← lastNamed_lasting name ds]
  ext d
  rw [lastNamed_eq_some distinct, lastNamed_eq_some (nodup_lasting ds), rearranged.mem_iff]

end Tree

inductive Task.Part (t : Tree Node) : Task → Prop
  | visit {u : Tree Node} (child : u ∈ t.children) (shape : IsCommand u) : Part t (.visit u)
  | times (count : Nat) {u : Tree Node} (child : u ∈ t.children) (shape : IsCommand u) :
    Part t (.times count u)
  | loop {c u : Tree Node} (kind : t.value.kind = .loop) (child : u ∈ t.children)
    (test : IsCondition c) (shape : IsCommand u) : Part t (.loop c u)

namespace Machine

inductive Comes (procedures : Bindings (Tree Node)) (v : View) (t : Tree Node) : Deed → Prop
  | order (o : Order) : Comes procedures v t (.order o)
  | store (name : String) (x : Float) : Comes procedures v t (.store name x)
  | push {tasks : List Task} (each : ∀ task ∈ tasks, task.Part t) :
    Comes procedures v t (.push tasks)
  | call {frame : Bindings Float} {body : Tree Node} (kind : t.value.kind = .call)
    (ready : Ready procedures v t.children frame body) : Comes procedures v t (.call frame body)

theorem comes_of_yields {procedures : Bindings (Tree Node)} {v : View} {t : Tree Node} {d : Deed}
    (shape : IsCommand t) (yields : Yields procedures v t d) : Comes procedures v t d := by
  cases yields with
  | program kind defined => cases shape <;> simp_all
  | block kind =>
    cases shape with
    | block _ commands =>
      refine .push fun task member => ?_
      obtain ⟨u, child, rfl⟩ := List.mem_map.mp member
      exact .visit child (commands u child)
    | _ => simp_all
  | assign => exact .store _ _
  | times kind value =>
    cases shape with
    | times _ count again =>
      refine .push fun task member => ?_
      obtain rfl := List.mem_singleton.mp member
      exact .times _ (by simp [Tree.children]) again
    | _ => simp_all
  | loop kind =>
    cases shape with
    | loop _ condition again =>
      refine .push fun task member => ?_
      obtain rfl := List.mem_singleton.mp member
      exact .loop kind (by simp [Tree.children]) condition again
    | _ => simp_all
  | @branch n condition body b kind value =>
    cases shape with
    | branch _ condition chosen =>
      refine .push fun task member => ?_
      cases b with
      | false => simp at member
      | true =>
        obtain rfl := List.mem_singleton.mp member
        exact .visit (by simp [Tree.children]) chosen
    | _ => simp_all
  | @branchElse n condition body otherwise b kind value =>
    cases shape with
    | branchElse _ condition chosen unchosen =>
      refine .push fun task member => ?_
      obtain rfl := List.mem_singleton.mp member
      cases b with
      | false => exact .visit (by simp [Tree.children]) unchosen
      | true => exact .visit (by simp [Tree.children]) chosen
    | _ => simp_all
  | call kind ready => exact .call kind (ready_of_prepare ready)
  | order => exact .order _

/-- The table has for each name what the last definition says. -/
theorem defineAll_ok {ds : List (Tree Node)} (shapes : ∀ d ∈ ds, IsProcedure d)
    (procedures : Bindings (Tree Node)) : ∃ table, defineAll procedures ds = .ok table ∧
      ∀ name, table.get? name = (Tree.lastNamed name ds).or (procedures.get? name) := by
  induction ds generalizing procedures with
  | nil => exact ⟨procedures, rfl, fun name => rfl⟩
  | cons d ds ih =>
    have first : IsProcedure d := shapes d (by simp)
    have others : ∀ e ∈ ds, IsProcedure e := fun e member => shapes e (by simp [member])
    cases first with
    | @definition n h own parameters body kind commands =>
      let d : Tree Node := .node n [.node h [own, parameters], body]
      obtain ⟨table, defined, found⟩ := ih others (procedures.put own.value.text d)
      refine ⟨table, ?_, fun name => ?_⟩
      · unfold defineAll
        rw [if_neg (by simp [kind])]
        exact defined
      · have titled : d.title? = some own.value.text := rfl
        rw [found, Tree.lastNamed_cons, titled, Bindings.get?_put, Option.or_assoc]
        by_cases same : name = own.value.text
        · simp [same, d]
        · simp [same, Ne.symm same]

theorem deed_program {procedures table : Bindings (Tree Node)} {n : Node} {block list : Tree Node}
    (kind : n.kind = .program) (defined : defineAll procedures list.children = .ok table)
    (v : View) : deed procedures v (.node n [block, list]) = .ok (.define table block) := by
  obtain ⟨_, token⟩ := n
  obtain rfl := kind
  have pair : deed procedures v (.node ⟨.program, token⟩ [block, list]) =
      (defineAll procedures list.children >>= fun noted => .ok (.define noted block)) := rfl
  rw [pair, defined]
  rfl

/-- The table that a program has once its procedures are noted. -/
theorem noted_ok {t : Tree Node} (shape : IsProgram t) : ∃ table block,
    (∀ v, deed .empty v t = .ok (.define table block)) ∧ IsCommand block ∧
      t.children.head? = some block ∧ Sorted table ∧
      ∀ name, table.get? name = t.definition? name := by
  cases shape with
  | @program n block list kind commands procedures =>
    obtain ⟨table, defined, found⟩ := defineAll_ok procedures .empty
    have sorted := defineAll_gives procedures sorted_empty
    rw [defined] at sorted
    refine ⟨table, block, deed_program kind defined, commands, rfl, ?_, fun name => ?_⟩
    · cases sorted with
      | ok sorted => exact sorted
    · rw [found, Bindings.get?_empty, Option.or_none]
      rfl

variable {ω : Type} [Host ω]

/-- How a run begins: it is stopped at once, or the procedures are noted and the block is next. -/
def opening (m : Machine ω) (table : Bindings (Tree Node)) (block : Tree Node) : Progress ω :=
  match Host.poll (Host.start m.host) with
  | (true, host) => .ended .stopped ⟨[], .empty, [], .empty, host⟩
  | (false, host) => .going ⟨[.visit block], .empty, [], table, host⟩

theorem step_start (m : Machine ω) {t : Tree Node} (shape : IsProgram t) : ∃ table block,
    (m.start t).step = m.opening table block ∧ IsCommand block ∧ t.children.head? = some block ∧
      Sorted table ∧ ∀ name, table.get? name = t.definition? name := by
  obtain ⟨table, block, found, facts⟩ := noted_ok shape
  refine ⟨table, block, ?_, facts⟩
  change Machine.proceed ⟨[], .empty, [], .empty, Host.start m.host⟩ (deed · · t) = _
  simp only [proceed, opening]
  rcases Host.poll (Host.start m.host) with ⟨_ | _, host⟩
  · simp only [attempt, found]
    rfl
  · rfl

end Machine

end TurtleGraphics
