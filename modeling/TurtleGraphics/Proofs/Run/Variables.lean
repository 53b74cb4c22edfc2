import TurtleGraphics.Proofs.Results
import TurtleGraphics.Proofs.Run.Shape

/-!
The variables of a procedure, and other names for them. An expression has the same value through
other names if each name it mentions is seen with the same value under its other name.
-/

namespace TurtleGraphics

open TurtleGraphics.Tree (IsExpression IsCondition IsProcedure)

def Node.reword (f : String → String) (n : Node) : Node :=
  { n with token := { n.token with text := f n.text } }

def Node.rename (f : String → String) (n : Node) : Node :=
  if n.kind = .name then n.reword f else n

theorem Node.rename_of_not_name (f : String → String) {n : Node} (other : n.kind ≠ .name) :
    n.rename f = n :=
  if_neg other

@[simp] theorem Node.rename_id (n : Node) : n.rename id = n := by
  unfold rename
  split
  · rfl
  · rfl

namespace Tree

def parameters : Tree Node → List String
  | .node _ [.node _ [_, list], _] => list.children.map (·.value.text)
  | _ => []

mutual

/-- The variables that are read or set. What is called is not a variable. -/
def mentions : Tree Node → List String
  | .node n ts =>
    if n.kind = .name then n.text :: mentionsAll ts
    else if n.kind = .call then mentionsOfCall ts
    else mentionsAll ts

def mentionsOfCall : List (Tree Node) → List String
  | [] => []
  | _ :: lists => mentionsBelow lists

def mentionsBelow : List (Tree Node) → List String
  | [] => []
  | .node _ ts :: lists => mentionsAll ts ++ mentionsBelow lists

def mentionsAll : List (Tree Node) → List String
  | [] => []
  | t :: ts => t.mentions ++ mentionsAll ts

end

mutual

/-- The same with other names for the variables that are read or set. -/
def rename (f : String → String) : Tree Node → Tree Node
  | .node n ts => .node (n.rename f) (if n.kind = .call then renameCall f ts else renameAll f ts)

def renameCall (f : String → String) : List (Tree Node) → List (Tree Node)
  | [] => []
  | name :: lists => name :: renameBelow f lists

def renameBelow (f : String → String) : List (Tree Node) → List (Tree Node)
  | [] => []
  | .node list ts :: lists => .node list (renameAll f ts) :: renameBelow f lists

def renameAll (f : String → String) : List (Tree Node) → List (Tree Node)
  | [] => []
  | t :: ts => t.rename f :: renameAll f ts

end

def reword (f : String → String) : Tree Node → Tree Node
  | .node n ts => .node (n.reword f) ts

def mentionsOfDefinition : Tree Node → List String
  | .node n [h, body] => parameters (.node n [h, body]) ++ body.mentions
  | _ => []

def renameDefinition (f : String → String) : Tree Node → Tree Node
  | .node n [.node h [own, .node list ps], body] =>
    .node n [.node h [own, .node list (ps.map (reword f))], body.rename f]
  | t => t

def definitions : Tree Node → List (Tree Node)
  | .node _ [_, list] => list.children
  | _ => []

def renameAt (i : Nat) (f : String → String) : Tree Node → Tree Node
  | .node n [block, .node list ps] => .node n [block, .node list (ps.modify i (renameDefinition f))]
  | t => t

theorem renameAll_eq_map (f : String → String) (ts : List (Tree Node)) :
    renameAll f ts = ts.map (rename f) := by
  induction ts with
  | nil => rfl
  | cons t ts ih => simp [renameAll, ih]

theorem rename_call (f : String → String) {n : Node} (kind : n.kind = .call) (name : Tree Node)
    (list : Node) (as : List (Tree Node)) :
    (Tree.node n [name, .node list as]).rename f =
      .node n [name, .node list (as.map (rename f))] := by
  have unnamed : n.kind ≠ .name := by simp [kind]
  rw [rename, if_pos kind, Node.rename_of_not_name f unnamed, renameCall, renameBelow, renameBelow,
    renameAll_eq_map]

example :
    let called : Tree Node := .node (.ofToken ⟨.name, "a"⟩) []
    let other : Tree Node := .node (.ofToken ⟨.name, "b"⟩) []
    (Tree.node (.ofToken ⟨.keyword, "do"⟩) [called, .node (.ofGroup .list) [called]]).rename
        (fun _ => "b") =
      .node (.ofToken ⟨.keyword, "do"⟩) [called, .node (.ofGroup .list) [other]] := by
  rfl

mutual

theorem rename_id : (t : Tree Node) → t.rename id = t
  | .node n ts => by
    rw [rename, Node.rename_id]
    split
    · rw [renameCall_id ts]
    · rw [renameAll_id ts]

theorem renameCall_id : (ts : List (Tree Node)) → renameCall id ts = ts
  | [] => rfl
  | _ :: lists => by rw [renameCall, renameBelow_id lists]

theorem renameBelow_id : (ts : List (Tree Node)) → renameBelow id ts = ts
  | [] => rfl
  | .node _ ts :: lists => by rw [renameBelow, renameAll_id ts, renameBelow_id lists]

theorem renameAll_id : (ts : List (Tree Node)) → renameAll id ts = ts
  | [] => rfl
  | t :: ts => by rw [renameAll, rename_id t, renameAll_id ts]

end

theorem reword_id (t : Tree Node) : t.reword id = t := by
  cases t
  rfl

theorem renameDefinition_id {d : Tree Node} (shape : IsProcedure d) :
    d.renameDefinition id = d := by
  cases shape with
  | @definition n h own parameters body kind commands =>
    obtain ⟨list, ps⟩ := parameters
    have same : ps.map (reword id) = ps := (List.map_congr_left fun p _ => reword_id p).trans
      (List.map_id' ps)
    rw [renameDefinition, rename_id, same]

theorem mem_mentions_of_name {t : Tree Node} (name : t.value.kind = .name) :
    t.value.text ∈ t.mentions := by
  obtain ⟨n, ts⟩ := t
  have kind : n.kind = .name := name
  simp [mentions, kind, value]

theorem mem_mentionsAll {ts : List (Tree Node)} {x : String} :
    x ∈ mentionsAll ts ↔ ∃ t ∈ ts, x ∈ t.mentions := by
  induction ts with
  | nil => simp [mentionsAll]
  | cons t ts ih => simp [mentionsAll, ih]

theorem mem_mentions_of_child {n : Node} {ts : List (Tree Node)} (other : n.kind ≠ .call)
    {t : Tree Node} (child : t ∈ ts) {x : String} (mentioned : x ∈ t.mentions) :
    x ∈ (Tree.node n ts).mentions := by
  have below : x ∈ mentionsAll ts := mem_mentionsAll.mpr ⟨t, child, mentioned⟩
  simp only [mentions, other, if_false]
  split
  · exact List.mem_cons_of_mem _ below
  · exact below

theorem mem_mentions_of_argument {n : Node} {name arguments : Tree Node} (kind : n.kind = .call)
    {t : Tree Node} (argument : t ∈ arguments.children) {x : String}
    (mentioned : x ∈ t.mentions) : x ∈ (Tree.node n [name, arguments]).mentions := by
  obtain ⟨list, as⟩ := arguments
  have below : x ∈ mentionsAll as := mem_mentionsAll.mpr ⟨t, argument, mentioned⟩
  simpa [mentions, kind, mentionsOfCall, mentionsBelow] using below

end Tree

/-- A call binds the names of its parameters and no others. -/
theorem Machine.has_bind {v : View} {ps as : List (Tree Node)} (counted : ps.length = as.length)
    {frame frame' : Bindings Float} (bound : bind v frame ps as = .ok frame') {x : String} :
    frame'.has x = true ↔ frame.has x = true ∨ x ∈ ps.map (·.value.text) := by
  induction ps generalizing as frame with
  | nil =>
    cases bound
    simp
  | cons p ps ih =>
    cases as with
    | nil => simp at counted
    | cons a as =>
      obtain ⟨y, _, rest⟩ := ok_of_bind bound
      rw [ih (by simpa using counted) rest, Bindings.has_put]
      simp only [Bool.or_eq_true, decide_eq_true_eq, List.map_cons, List.mem_cons, or_assoc,
        or_left_comm]

structure Renaming where
  spell : String → String
  Admits : String → Prop
  distinct : ∀ {x y}, Admits x → Admits y → spell x = spell y → x = y

namespace Renaming

def none : Renaming :=
  ⟨id, fun _ => True, fun _ _ same => same⟩

/-- One name in another's place, which does not occur. -/
def replace (old new : String) : Renaming where
  spell x := if x = old then new else x
  Admits := (· ≠ new)
  distinct {x y} hx hy same := by
    split at same
    · split at same
      · simp [*]
      · exact absurd same.symm hy
    · split at same
      · exact absurd same hx
      · exact same

def Covers (r : Renaming) (t : Tree Node) : Prop :=
  ∀ x ∈ t.mentions, r.Admits x

variable {r : Renaming}

/-- What is neither a name nor a call stays, and what is below it is renamed. -/
theorem Covers.operator {n : Node} {ts : List (Tree Node)} (covers : r.Covers (.node n ts))
    (plain : n.kind ≠ .name ∧ n.kind ≠ .call) :
    (Tree.node n ts).rename r.spell = .node n (ts.map (Tree.rename r.spell)) ∧
      ∀ t ∈ ts, r.Covers t := by
  constructor
  · rw [Tree.rename, if_neg plain.2, Node.rename_of_not_name r.spell plain.1,
      Tree.renameAll_eq_map]
  · intro t child x mentioned
    exact covers x (Tree.mem_mentions_of_child plain.2 child mentioned)

theorem Covers.argument {n : Node} {name arguments : Tree Node}
    (covers : r.Covers (.node n [name, arguments])) (kind : n.kind = .call) {t : Tree Node}
    (argument : t ∈ arguments.children) : r.Covers t :=
  fun x mentioned => covers x (Tree.mem_mentions_of_argument kind argument mentioned)

end Renaming

structure View.Alike (r : Renaming) (v w : View) : Prop where
  fetch : ∀ x, r.Admits x → w.fetch (r.spell x) = v.fetch x
  moved : ∀ x, r.Admits x → v.fetch x = .none → r.spell x = x
  x : w.x = v.x
  y : w.y = v.y

namespace View

variable {r : Renaming} {v w : View}

theorem Alike.evaluate (alike : Alike r v w) {t : Tree Node} (shape : IsExpression t)
    (covers : r.Covers t) : w.evaluate (t.rename r.spell) = v.evaluate t := by
  induction shape with
  | @value n kind =>
    obtain ⟨_, token⟩ := n
    rcases kind with rfl | rfl | rfl | rfl
    · rfl
    · have admitted : r.Admits token.text := covers _ (Tree.mem_mentions_of_name rfl)
      have right : w.evaluate ((Tree.node ⟨.name, token⟩ []).rename r.spell) =
          (w.fetch (r.spell token.text)).elim
            (.error (.undefinedVariable (r.spell token.text))) .ok :=
        w.evaluate_name { token with text := r.spell token.text }
      rw [right, v.evaluate_name, alike.fetch token.text admitted]
      cases found : v.fetch token.text with
      | some x => rfl
      | none => rw [alike.moved _ admitted found]
    · exact congrArg _ alike.x
    · exact congrArg _ alike.y
  | @sign n a kind operand ih =>
    obtain ⟨renamed, below⟩ := covers.operator (by rcases kind with kind | kind <;> simp [kind])
    have one := ih (below a (by simp))
    rw [renamed]
    obtain ⟨_, token⟩ := n
    rcases kind with rfl | rfl
    · exact one
    · exact congrArg (Except.map _) one
  | @binary n a b kind left right first second =>
    obtain ⟨renamed, below⟩ := covers.operator (by
      rcases kind with kind | kind | kind | kind <;> simp [kind])
    have one := first (below a (by simp))
    have two := second (below b (by simp))
    have computed (f : Float → Float → Except RuntimeError Float) :
        (do f (← w.evaluate (a.rename r.spell)) (← w.evaluate (b.rename r.spell))) =
          (do f (← v.evaluate a) (← v.evaluate b)) := by
      rw [one, two]
    rw [renamed]
    obtain ⟨_, token⟩ := n
    rcases kind with rfl | rfl | rfl | rfl
    · exact computed _
    · exact computed _
    · exact computed _
    · exact computed _

theorem Alike.holds (alike : Alike r v w) {t : Tree Node} (shape : IsCondition t)
    (covers : r.Covers t) : w.holds (t.rename r.spell) = v.holds t := by
  cases shape with
  | @compare n a b kind left right =>
    obtain ⟨renamed, below⟩ := covers.operator (by
      rcases kind with kind | kind | kind <;> simp [kind])
    have one := alike.evaluate left (below a (by simp))
    have two := alike.evaluate right (below b (by simp))
    rw [renamed]
    simp only [View.holds, List.map, twoChildren_bind, one, two]

theorem Alike.channel (alike : Alike r v w) {t : Tree Node} (shape : IsExpression t)
    (covers : r.Covers t) : w.channel (t.rename r.spell) = v.channel t := by
  simp only [View.channel, alike.evaluate shape covers]

end View

end TurtleGraphics
