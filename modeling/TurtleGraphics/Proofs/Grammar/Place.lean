import TurtleGraphics.Proofs.Grammar.Phrase
import TurtleGraphics.Proofs.Token.Spelling

/-!
What a node stands for follows from its text and its place in the tree. A name may read like a node
that groups others, and only the place tells them apart.
-/

namespace TurtleGraphics

inductive Place
  | program | procedures | procedure | header | list | block | command | token

namespace Place

def node : Place → String → Node
  | program, _ => .ofGroup .program
  | procedures, _ | list, _ => .ofGroup .list
  | header, _ => .ofGroup .header
  | block, _ => .ofGroup .block
  | procedure, w | command, w | token, w => .ofToken (.ofText keywords w)

def first : Place → Place
  | program => block
  | procedures => procedure
  | procedure => header
  | block => command
  | header | list | command | token => token

/-- The commands whose further children are blocks. -/
def nesting : List String :=
  ["repeat", "while", "if"]

def others : Place → String → Place
  | program, _ => procedures
  | procedures, _ => procedure
  | procedure, _ => block
  | header, _ => list
  | block, _ => command
  | command, w => if w = "do" then list else if nesting.contains w then block else token
  | list, _ | token, _ => token

end Place

namespace Tree

mutual

/-- What a tree of texts means in its place. -/
def meant (p : Place) : Tree String → Tree Node
  | node w [] => node (p.node w) []
  | node w (t :: ts) => node (p.node w) (t.meant p.first :: meantAll (p.others w) ts)

def meantAll (p : Place) : List (Tree String) → List (Tree Node)
  | [] => []
  | t :: ts => t.meant p :: meantAll p ts

end

structure Fits (p : Place) (t : Tree Node) : Prop where
  plain : (t.map Node.display).AllPlain
  meant : (t.map Node.display).meant p = t

variable {p q : Place} {n : Node} {t : Tree Node} {ts : List (Tree Node)}

theorem preorderAll_plain (each : ∀ t ∈ ts, Fits p t) :
    ∀ w ∈ preorderAll (mapAll Node.display ts), Description.IsPlain w := by
  induction ts with
  | nil => simp [mapAll, preorderAll]
  | cons t ts ih =>
    intro w member
    rcases List.mem_append.mp member with first | later
    · exact (each t (by simp)).plain w first
    · exact ih (fun u inside => each u (by simp [inside])) w later

theorem meantAll_map (each : ∀ t ∈ ts, Fits p t) : meantAll p (mapAll Node.display ts) = ts := by
  induction ts with
  | nil => rfl
  | cons t ts ih =>
    rw [mapAll, meantAll, (each t (by simp)).meant, ih fun u member => each u (by simp [member])]

theorem fits_leaf (plain : Description.IsPlain n.display) (same : p.node n.display = n) :
    Fits p (.node n []) where
  plain := by simpa [AllPlain, map, mapAll, preorder, preorderAll] using plain
  meant := by rw [map, mapAll, Tree.meant, same]

theorem fits_node (p : Place) (plain : Description.IsPlain n.display) (same : p.node n.display = n)
    (first : Fits p.first t) (others : ∀ u ∈ ts, Fits (p.others n.display) u) :
    Fits p (.node n (t :: ts)) where
  plain := by
    intro w member
    rcases List.mem_cons.mp member with rfl | below
    · exact plain
    · rcases List.mem_append.mp below with child | later
      · exact first.plain w child
      · exact preorderAll_plain others w later
  meant := by rw [map, mapAll, Tree.meant, same, first.meant, meantAll_map others]

/-- A node whose children all stand in the same kind of place. -/
theorem fits_all (plain : Description.IsPlain n.display) (same : p.node n.display = n)
    (first : p.first = q) (others : p.others n.display = q) (each : ∀ t ∈ ts, Fits q t) :
    Fits p (.node n ts) := by
  cases ts with
  | nil => exact fits_leaf plain same
  | cons t ts =>
    subst first
    apply fits_node p plain same (each t (by simp))
    rw [others]
    exact fun u member => each u (by simp [member])

end Tree

namespace Phrase

open TurtleGraphics.Tree (Fits fits_leaf fits_node fits_all)
open TurtleGraphics.Tree.Description (IsPlain)
open Token (Legible)

structure Shown (t : Token) : Prop where
  plain : IsPlain (Node.ofToken t).display
  same : Node.ofToken (.ofText keywords (Node.ofToken t).display) = Node.ofToken t

theorem shown_of_legible {t : Token} (legible : Legible keywords t)
    (kind : t.kind = .name ∨ t.kind = .number ∨ t.kind = .keyword) : Shown t := by
  obtain ⟨k, text⟩ := t
  have again := legible.alone.ofText_text
  have word : IsPlain text := by
    apply legible.plain <;> rcases kind with rfl | rfl | rfl <;> simp
  rcases kind with rfl | rfl | rfl
  · exact ⟨word, congrArg Node.ofToken again⟩
  · exact ⟨word, congrArg Node.ofToken again⟩
  · exact ⟨word, congrArg Node.ofToken again⟩

theorem shown_mark {text : String} (fixed : text ∈ ["+", "-", "*", "/", "<", "=", ">"]) :
    Shown (mark text) := by
  have each : ∀ text ∈ ["+", "-", "*", "/", "<", "=", ">"],
      IsPlain text ∧ Token.ofText keywords text = mark text := by
    decide +kernel
  obtain ⟨plain, again⟩ := each text fixed
  exact ⟨plain, congrArg Node.ofToken again⟩

theorem fits_token {t : Token} (shown : Shown t) {ts : List (Tree Node)}
    (each : ∀ u ∈ ts, Fits .token u) : Fits .token (.node (.ofToken t) ts) :=
  fits_all shown.plain shown.same rfl rfl each

theorem fits_atom {t : Token} (shown : Shown t) : Fits .token (atom t) :=
  fits_token shown (by simp)

theorem AddOperator.shown (op : AddOperator) : Shown (mark op.text) :=
  shown_mark (by cases op <;> decide)

theorem MultiplyOperator.shown (op : MultiplyOperator) : Shown (mark op.text) :=
  shown_mark (by cases op <;> decide)

theorem Comparator.shown (op : Comparator) : Shown (mark op.text) :=
  shown_mark (by cases op <;> decide)

def AllLegible (ts : List Token) : Prop :=
  ∀ t ∈ ts, Legible keywords t

theorem allLegible_append {ts us : List Token} :
    AllLegible (ts ++ us) ↔ AllLegible ts ∧ AllLegible us :=
  List.forall_mem_append

theorem allLegible_cons {t : Token} {ts : List Token} :
    AllLegible (t :: ts) ↔ Legible keywords t ∧ AllLegible ts :=
  List.forall_mem_cons

theorem shown_naming {text : String} (legible : Legible keywords (naming text)) :
    Shown (naming text) :=
  shown_of_legible legible (.inl rfl)

theorem shown_word {text : String} (legible : Legible keywords (word text)) : Shown (word text) :=
  shown_of_legible legible (.inr (.inr rfl))

theorem fits_binary {t : Token} (shown : Shown t) {left right : Tree Node}
    (first : Fits .token left) (second : Fits .token right) :
    Fits .token (.node (.ofToken t) [left, right]) := by
  apply fits_token shown
  simpa using ⟨first, second⟩

mutual

theorem Factor.fits : (u : Factor) → AllLegible u.tokens → Fits .token u.tree
  | .name text, legible => fits_atom (shown_naming (legible _ (by simp [Factor.tokens])))
  | .number text, legible =>
    fits_atom (shown_of_legible (legible _ (by simp [Factor.tokens])) (.inr (.inl rfl)))
  | .getX, legible => fits_atom (shown_word (legible _ (by simp [Factor.tokens])))
  | .getY, legible => fits_atom (shown_word (legible _ (by simp [Factor.tokens])))
  | .parens e, legible => by
    rw [Factor.tokens, allLegible_cons, allLegible_append] at legible
    exact e.fits legible.2.1

theorem Factors.fits {left : Tree Node} (first : Fits .token left) :
    (more : Factors) → AllLegible more.tokens → Fits .token (more.tree left)
  | .nil, _ => first
  | .cons op u more, legible => by
    rw [Factors.tokens, allLegible_cons, allLegible_append] at legible
    obtain ⟨-, factor, others⟩ := legible
    exact more.fits (fits_binary op.shown first (u.fits factor)) others

theorem Addends.fits {left : Tree Node} (first : Fits .token left) :
    (further : Addends) → AllLegible further.tokens → Fits .token (further.tree left)
  | .nil, _ => first
  | .cons op u more further, legible => by
    rw [Addends.tokens, allLegible_cons, allLegible_append, allLegible_append] at legible
    obtain ⟨-, factor, factors, others⟩ := legible
    exact further.fits (fits_binary op.shown first (more.fits (u.fits factor) factors)) others

theorem Expression.fits : (e : Expression) → AllLegible e.tokens → Fits .token e.tree
  | .signed none u more further, legible => by
    rw [Expression.tokens, allLegible_append, allLegible_append, allLegible_append] at legible
    obtain ⟨-, factor, factors, others⟩ := legible
    exact further.fits (more.fits (u.fits factor) factors) others
  | .signed (some op) u more further, legible => by
    rw [Expression.tokens, allLegible_append, allLegible_append, allLegible_append] at legible
    obtain ⟨-, factor, factors, others⟩ := legible
    have signed : Fits .token (.node (.ofToken (mark op.text)) [u.tree]) :=
      fits_token op.shown (by simpa using u.fits factor)
    exact further.fits (more.fits signed factors) others

end

theorem Condition.fits (c : Condition) (legible : AllLegible c.tokens) : Fits .token c.tree := by
  rw [tokens, allLegible_append, allLegible_cons] at legible
  obtain ⟨left, -, right⟩ := legible
  exact fits_binary c.comparator.shown (c.left.fits left) (c.right.fits right)

/-- A command that holds no block. -/
theorem fits_flat {text : String} (shown : Shown (word text)) {ts : List (Tree Node)}
    (flat : Place.command.others text = .token) (each : ∀ u ∈ ts, Fits .token u) :
    Fits .command (.node (.ofToken (word text)) ts) :=
  fits_all shown.plain shown.same rfl flat each

/-- A command with blocks after its expression or condition. -/
theorem fits_nesting {text : String} (shown : Shown (word text)) {t : Tree Node}
    {ts : List (Tree Node)} (nesting : Place.command.others text = .block)
    (first : Fits .token t) (each : ∀ u ∈ ts, Fits .block u) :
    Fits .command (.node (.ofToken (word text)) (t :: ts)) := by
  apply fits_node .command shown.plain shown.same first
  change ∀ u ∈ ts, Fits (Place.command.others text) u
  rw [nesting]
  exact each

theorem fits_group {p q : Place} {g : Node.Group} {ts : List (Tree Node)}
    (node : p.node g.name = .ofGroup g) (first : p.first = q) (others : p.others g.name = q)
    (each : ∀ u ∈ ts, Fits q u) : Fits p (.node (.ofGroup g) ts) := by
  have plain : IsPlain g.name := by cases g <;> decide +kernel
  exact fits_all plain node first others each

theorem Shade.fits (shade : Shade) (legible : AllLegible shade.tokens) :
    Fits .command shade.tree := by
  cases shade with
  | named c =>
    have shown := shown_word (legible (word c.name) (by simp [tokens]))
    exact fits_flat shown (by cases c <;> rfl) (by simp)
  | mixed red green blue =>
    rw [tokens, allLegible_cons, allLegible_append, allLegible_append] at legible
    obtain ⟨head, first, second, third⟩ := legible
    apply fits_flat (shown_word head) rfl
    simpa using ⟨red.fits first, green.fits second, blue.fits third⟩

mutual

theorem Command.fits : (c : Command) → AllLegible c.tokens → Fits .command c.tree
  | .move m e close, legible => by
    rw [Command.tokens, allLegible_cons, allLegible_append] at legible
    obtain ⟨head, expression, -⟩ := legible
    apply fits_flat (shown_word head) (by cases m <;> rfl)
    simpa using e.fits expression
  | .bare b close, legible => by
    rw [Command.tokens, allLegible_cons] at legible
    exact fits_flat (shown_word legible.1) (by cases b <;> rfl) (by simp)
  | .jump x y close, legible => by
    rw [Command.tokens, allLegible_cons, allLegible_append, allLegible_append] at legible
    obtain ⟨head, first, second, -⟩ := legible
    apply fits_flat (shown_word head) rfl
    simpa using ⟨x.fits first, y.fits second⟩
  | .assign name e close, legible => by
    rw [Command.tokens, allLegible_cons, allLegible_cons, allLegible_append] at legible
    obtain ⟨head, target, expression, -⟩ := legible
    apply fits_flat (shown_word head) rfl
    simpa using ⟨fits_atom (shown_naming target), e.fits expression⟩
  | .times e body, legible => by
    rw [Command.tokens, allLegible_cons, allLegible_append] at legible
    obtain ⟨head, expression, block⟩ := legible
    apply fits_nesting (shown_word head) rfl (e.fits expression)
    simpa using body.fits block
  | .loop c body, legible => by
    rw [Command.tokens, allLegible_cons, allLegible_append] at legible
    obtain ⟨head, condition, block⟩ := legible
    apply fits_nesting (shown_word head) rfl (c.fits condition)
    simpa using body.fits block
  | .branch c body, legible => by
    rw [Command.tokens, allLegible_cons, allLegible_append] at legible
    obtain ⟨head, condition, block⟩ := legible
    apply fits_nesting (shown_word head) rfl (c.fits condition)
    simpa using body.fits block
  | .branchElse c body otherwise, legible => by
    rw [Command.tokens, allLegible_cons, allLegible_append, allLegible_append, allLegible_cons]
      at legible
    obtain ⟨head, condition, block, -, other⟩ := legible
    apply fits_nesting (shown_word head) rfl (c.fits condition)
    simpa using ⟨body.fits block, otherwise.fits other⟩
  | .call name arguments close, legible => by
    rw [Command.tokens, allLegible_cons, allLegible_cons, allLegible_append] at legible
    obtain ⟨head, target, expressions, -⟩ := legible
    have shown := shown_word head
    have list : Fits .list (.node (.ofGroup .list) (arguments.map Expression.tree)) := by
      apply fits_group (q := .token) rfl rfl rfl
      intro t member
      obtain ⟨e, inside, rfl⟩ := List.mem_map.mp member
      exact e.fits fun t token => expressions t (List.mem_flatMap.mpr ⟨e, inside, token⟩)
    apply fits_node .command shown.plain shown.same (fits_atom (shown_naming target))
    intro u member
    obtain rfl := List.mem_singleton.mp member
    exact list
  | .color shade close, legible => by
    rw [Command.tokens, allLegible_append] at legible
    exact shade.fits legible.1

theorem Block.fits : (b : Block) → AllLegible b.tokens → Fits .block b.tree
  | .braces opening commands close, legible => by
    rw [Block.tokens, allLegible_cons, allLegible_append, allLegible_append] at legible
    exact fits_group rfl rfl rfl (commands.fits legible.2.2.1)

theorem Commands.fits : (cs : Commands) → AllLegible cs.tokens → ∀ t ∈ cs.trees, Fits .command t
  | .nil, _, _, member => nomatch member
  | .cons c more, legible, t, member => by
    rw [Commands.tokens, allLegible_append] at legible
    rcases List.mem_cons.mp member with rfl | later
    · exact c.fits legible.1
    · exact more.fits legible.2 t later

end

theorem Procedure.fits (p : Procedure) (legible : AllLegible p.tokens) :
    Fits .procedure p.tree := by
  rw [tokens, allLegible_cons, allLegible_cons, allLegible_append] at legible
  obtain ⟨head, name, parameters, body⟩ := legible
  have list : Fits .list
      (.node (.ofGroup .list) (p.parameters.map fun x => atom (naming x))) := by
    apply fits_group (q := .token) rfl rfl rfl
    intro t member
    obtain ⟨x, inside, rfl⟩ := List.mem_map.mp member
    exact fits_atom (shown_naming (parameters _ (List.mem_map.mpr ⟨x, inside, rfl⟩)))
  have plain : IsPlain (Node.ofGroup .header).display := by decide +kernel
  have header : Fits .header (.node (.ofGroup .header) [atom (naming p.name),
      .node (.ofGroup .list) (p.parameters.map fun x => atom (naming x))]) := by
    apply fits_node .header plain rfl (fits_atom (shown_naming name))
    intro u member
    obtain rfl := List.mem_singleton.mp member
    exact list
  have shown := shown_word head
  apply fits_node .procedure shown.plain shown.same header
  intro u member
  obtain rfl := List.mem_singleton.mp member
  exact p.body.fits body

theorem Script.fits (s : Script) (first : AllLegible s.first.tokens)
    (more : ∀ c ∈ s.more, AllLegible c.tokens)
    (procedures : ∀ p ∈ s.procedures, AllLegible p.tokens) : Fits .program s.tree := by
  have plain : IsPlain (Node.ofGroup .program).display := by decide +kernel
  have block : Fits .block (.node (.ofGroup .block) (s.first.tree :: s.more.map Command.tree)) := by
    apply fits_group (q := .command) rfl rfl rfl
    intro t member
    rcases List.mem_cons.mp member with rfl | later
    · exact s.first.fits first
    · obtain ⟨c, inside, rfl⟩ := List.mem_map.mp later
      exact c.fits (more c inside)
  have list : Fits .procedures (.node (.ofGroup .list) (s.procedures.map Procedure.tree)) := by
    apply fits_group (q := .procedure) rfl rfl rfl
    intro t member
    obtain ⟨p, inside, rfl⟩ := List.mem_map.mp member
    exact p.fits (procedures p inside)
  apply fits_node .program plain rfl block
  intro u member
  obtain rfl := List.mem_singleton.mp member
  exact list

end Phrase

end TurtleGraphics
