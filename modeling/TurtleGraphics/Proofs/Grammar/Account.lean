import TurtleGraphics.Proofs.Forest.Census
import TurtleGraphics.Proofs.Grammar.Discipline
import TurtleGraphics.Proofs.Grammar.Parse

/-!
An account of the nodes of a program. Each token of its source brings about certain nodes, one of
its own or some that group others, and apart from the three at the top there are no nodes but these.
All of them lie below the root.
-/

namespace TurtleGraphics

/-- Whether the token has a node of its own. Line ends, parentheses, braces and `else` have none. -/
def Token.stays (t : Token) : Bool :=
  match t.kind with
  | .name | .number => true
  | .keyword => t.text != "else"
  | .symbol => ["+", "-", "*", "/", "<", "=", ">"].contains t.text
  | .endOfLine | .endOfInput | .error => false

/-- What is grouped where the token stands: the commands in braces, the arguments of a call, or the
head of a procedure and its parameters. -/
def Token.groups (t : Token) : List Node.Group :=
  if t = Phrase.mark "\x7b" then [.block]
  else if t = Phrase.word "do" then [.list]
  else if t = Phrase.word "def" then [.header, .list]
  else []

def Node.Group.atTop : List Node.Group :=
  [program, block, list]

def Token.nodes (t : Token) : List Node :=
  (if t.stays then [.ofToken t] else []) ++ t.groups.map .ofGroup

/-- The nodes of tokens, apart from those that group others. -/
theorem Token.nodes_sorted (ts : List Token) :
    ((ts.filter stays).map Node.ofToken ++ (ts.flatMap groups).map Node.ofGroup).Perm
      (ts.flatMap nodes) := by
  have own : (ts.filter stays).map Node.ofToken =
      ts.flatMap fun t => if t.stays then [.ofToken t] else [] := by
    induction ts with
    | nil => rfl
    | cons t ts ih => cases stays : t.stays <;> simp [stays, ih]
  rw [own, List.map_flatMap]
  exact List.flatMap_append_perm ts _ _

theorem Token.length_groups (ts : List Token) :
    (ts.flatMap groups).length = ts.count (Phrase.mark "\x7b") + ts.count (Phrase.word "do") +
      2 * ts.count (Phrase.word "def") := by
  induction ts with
  | nil => rfl
  | cons t ts ih =>
    have here : t.groups.length = [t].count (Phrase.mark "\x7b") + [t].count (Phrase.word "do") +
        2 * [t].count (Phrase.word "def") := by
      by_cases brace : t = Phrase.mark "\x7b"
      · subst brace
        decide +kernel
      by_cases call : t = Phrase.word "do"
      · subst call
        decide +kernel
      by_cases definition : t = Phrase.word "def"
      · subst definition
        decide +kernel
      · simp [groups, brace, call, definition]
    rw [List.flatMap_cons, List.length_append, ih, here]
    simp only [List.count_cons, List.count_nil]
    omega

namespace Phrase

def brought (n : Node) (ts : List Token) : Nat :=
  (ts.flatMap Token.nodes).count n

def occurs (n : Node) (t : Tree Node) : Nat :=
  t.preorder.count n

def occursAll (n : Node) (ts : List (Tree Node)) : Nat :=
  (Tree.preorderAll ts).count n

variable {n : Node}

@[simp] theorem brought_nil : brought n [] = 0 :=
  rfl

@[simp] theorem brought_cons (t : Token) (ts : List Token) :
    brought n (t :: ts) = t.nodes.count n + brought n ts := by
  simp [brought]

@[simp] theorem brought_append (ts us : List Token) :
    brought n (ts ++ us) = brought n ts + brought n us := by
  simp [brought]

@[simp] theorem occurs_node (v : Node) (ts : List (Tree Node)) :
    occurs n (.node v ts) = [v].count n + occursAll n ts := by
  rw [occurs, Tree.preorder, ← List.singleton_append, List.count_append, occursAll]

@[simp] theorem occursAll_nil : occursAll n [] = 0 :=
  rfl

@[simp] theorem occursAll_cons (t : Tree Node) (ts : List (Tree Node)) :
    occursAll n (t :: ts) = occurs n t + occursAll n ts := by
  simp [occursAll, occurs, Tree.preorderAll]

theorem nodes_naming (text : String) : (naming text).nodes = [.ofToken (naming text)] := by
  rfl

theorem nodes_number (text : String) :
    Token.nodes ⟨.number, text⟩ = [.ofToken ⟨.number, text⟩] := by
  rfl

theorem nodes_endOfLine (text : String) : (endOfLine text).nodes = [] := by
  rfl

/-- A word has its own node, unless it separates two blocks, and only two words group others. -/
theorem nodes_word {text : String} (plain : text ∉ ["else", "do", "def"]) :
    (word text).nodes = [.ofToken (word text)] := by
  simp only [List.mem_cons, List.not_mem_nil, or_false, not_or] at plain
  simp [Token.nodes, Token.stays, Token.groups, word, mark, plain]

theorem AddOperator.nodes (op : AddOperator) :
    (mark op.text).nodes = [.ofToken (mark op.text)] := by
  cases op <;> decide +kernel

theorem MultiplyOperator.nodes (op : MultiplyOperator) :
    (mark op.text).nodes = [.ofToken (mark op.text)] := by
  cases op <;> decide +kernel

theorem Comparator.nodes (c : Comparator) :
    (mark c.text).nodes = [.ofToken (mark c.text)] := by
  cases c <;> decide +kernel

-- A left operand comes in once, however deep it ends up in the tree.
mutual

theorem Factor.account : (u : Factor) → occurs n u.tree = brought n u.tokens
  | .name text => by
    simp only [Factor.tree, atom, Factor.tokens, occurs_node, occursAll_nil, brought_cons,
      nodes_naming, brought_nil]
  | .number text => by
    simp only [Factor.tree, atom, Factor.tokens, occurs_node, occursAll_nil, brought_cons,
      nodes_number, brought_nil]
  | .getX | .getY => by
    simp (disch := decide) only [Factor.tree, atom, Factor.tokens, occurs_node, occursAll_nil,
      brought_cons, nodes_word, brought_nil]
  | .parens e => by
    have inner := e.account
    have opening : (mark "(").nodes = [] := by decide +kernel
    have closing : (mark ")").nodes = [] := by decide +kernel
    simp only [Factor.tree, Factor.tokens, brought_cons, brought_append, opening, closing,
      List.count_nil, brought_nil]
    omega

theorem Factors.account (left : Tree Node) :
    (more : Factors) → occurs n (more.tree left) = occurs n left + brought n more.tokens
  | .nil => rfl
  | .cons op u more => by
    have factor := u.account
    have others := more.account (.node (.ofToken (mark op.text)) [left, u.tree])
    simp only [occurs_node, occursAll_cons, occursAll_nil] at others
    simp only [Factors.tree, Factors.tokens, brought_cons, brought_append, op.nodes]
    omega

theorem Addends.account (left : Tree Node) : (further : Addends) →
    occurs n (further.tree left) = occurs n left + brought n further.tokens
  | .nil => rfl
  | .cons op u more further => by
    have factor := u.account
    have product := more.account u.tree
    have others := further.account (.node (.ofToken (mark op.text)) [left, more.tree u.tree])
    simp only [occurs_node, occursAll_cons, occursAll_nil] at others
    simp only [Addends.tree, Addends.tokens, brought_cons, brought_append, op.nodes]
    omega

theorem Expression.account : (e : Expression) → occurs n e.tree = brought n e.tokens
  | .signed none u more further => by
    have factor := u.account
    have product := more.account u.tree
    have sum := further.account (more.tree u.tree)
    simp only [Expression.tree, Expression.tokens, Option.toList, List.map_nil, List.nil_append,
      brought_append]
    omega
  | .signed (some op) u more further => by
    have factor := u.account
    have product := more.account (.node (.ofToken (mark op.text)) [u.tree])
    have sum := further.account (more.tree (.node (.ofToken (mark op.text)) [u.tree]))
    simp only [occurs_node, occursAll_cons, occursAll_nil] at product
    simp only [Expression.tree, Expression.tokens, Option.toList, List.map_cons, List.map_nil,
      List.singleton_append, brought_cons, brought_append, op.nodes]
    omega

end

theorem Condition.account (c : Condition) : occurs n c.tree = brought n c.tokens := by
  have left := c.left.account (n := n)
  have right := c.right.account (n := n)
  simp only [Condition.tree, Condition.tokens, occurs_node, occursAll_cons, occursAll_nil,
    brought_append, brought_cons, c.comparator.nodes]
  omega

theorem brought_lineEnds (texts : List String) : brought n (texts.map endOfLine) = 0 := by
  induction texts with
  | nil => rfl
  | cons text texts ih => rw [List.map_cons, brought_cons, ih, nodes_endOfLine, List.count_nil]

theorem LineEnd.brought (l : LineEnd) : Phrase.brought n l.tokens = 0 := by
  rw [LineEnd.tokens, brought_cons, brought_lineEnds, nodes_endOfLine, List.count_nil]

theorem Move.nodes (m : Move) : (word m.text).nodes = [.ofToken (word m.text)] :=
  nodes_word (by cases m <;> decide)

theorem Bare.nodes (b : Bare) : (word b.text).nodes = [.ofToken (word b.text)] :=
  nodes_word (by cases b <;> decide)

theorem nodes_shade (c : Palette) : (word c.name).nodes = [.ofToken (word c.name)] :=
  nodes_word (by cases c <;> decide)

theorem Shade.account (shade : Shade) : occurs n shade.tree = brought n shade.tokens := by
  cases shade with
  | named c =>
    simp only [Shade.tree, atom, Shade.tokens, occurs_node, occursAll_nil, brought_cons,
      nodes_shade, brought_nil]
  | mixed red green blue =>
    have first := red.account (n := n)
    have second := green.account (n := n)
    have third := blue.account (n := n)
    simp (disch := decide) only [Shade.tree, Shade.tokens, occurs_node, occursAll_cons,
      occursAll_nil, brought_cons, brought_append, nodes_word]
    omega

theorem account_all {α : Type} {tree : α → Tree Node} {tokens : α → List Token}
    (account : ∀ a, occurs n (tree a) = brought n (tokens a)) (as : List α) :
    occursAll n (as.map tree) = brought n (as.flatMap tokens) := by
  induction as with
  | nil => rfl
  | cons a as ih =>
    rw [List.map_cons, List.flatMap_cons, occursAll_cons, brought_append, account a, ih]

theorem nodes_else : (word "else").nodes = [] := by
  decide +kernel

theorem nodes_do :
    (word "do").nodes = [.ofToken (word "do"), .ofGroup .list] := by
  decide +kernel

theorem nodes_def :
    (word "def").nodes = [.ofToken (word "def"), .ofGroup .header, .ofGroup .list] := by
  decide +kernel

theorem nodes_open : (mark "\x7b").nodes = [.ofGroup .block] := by
  decide +kernel

theorem nodes_close : (mark "\x7d").nodes = [] := by
  decide +kernel

mutual

theorem Command.account : (c : Command) → occurs n c.tree = brought n c.tokens
  | .move m e close => by
    have value := e.account (n := n)
    have ends := close.brought (n := n)
    simp only [Command.tree, Command.tokens, occurs_node, occursAll_cons, occursAll_nil,
      brought_cons, brought_append, m.nodes]
    omega
  | .bare b close => by
    have ends := close.brought (n := n)
    simp only [Command.tree, atom, Command.tokens, occurs_node, occursAll_nil, brought_cons,
      b.nodes]
    omega
  | .jump x y close => by
    have across := x.account (n := n)
    have up := y.account (n := n)
    have ends := close.brought (n := n)
    simp (disch := decide) only [Command.tree, Command.tokens, occurs_node, occursAll_cons,
      occursAll_nil, brought_cons, brought_append, nodes_word]
    omega
  | .assign name e close => by
    have value := e.account (n := n)
    have ends := close.brought (n := n)
    simp (disch := decide) only [Command.tree, atom, Command.tokens, occurs_node, occursAll_cons,
      occursAll_nil, brought_cons, brought_append, nodes_naming, nodes_word]
    omega
  | .times e body => by
    have value := e.account (n := n)
    have inner := body.account
    simp (disch := decide) only [Command.tree, Command.tokens, occurs_node, occursAll_cons,
      occursAll_nil, brought_cons, brought_append, nodes_word]
    omega
  | .loop c body | .branch c body => by
    have value := c.account (n := n)
    have inner := body.account
    simp (disch := decide) only [Command.tree, Command.tokens, occurs_node, occursAll_cons,
      occursAll_nil, brought_cons, brought_append, nodes_word]
    omega
  | .branchElse c body otherwise => by
    have value := c.account (n := n)
    have inner := body.account
    have other := otherwise.account
    simp (disch := decide) only [Command.tree, Command.tokens, occurs_node, occursAll_cons,
      occursAll_nil, brought_cons, brought_append, nodes_word, nodes_else, List.count_nil]
    omega
  | .call name arguments close => by
    have values := account_all (n := n) Expression.account arguments
    have ends := close.brought (n := n)
    simp only [Command.tree, atom, Command.tokens, occurs_node, occursAll_cons, occursAll_nil,
      brought_cons, brought_append, nodes_naming, nodes_do, List.count_cons, List.count_nil]
    omega
  | .color shade close => by
    have value := shade.account (n := n)
    have ends := close.brought (n := n)
    simp only [Command.tree, Command.tokens, brought_append]
    omega

theorem Block.account : (b : Block) → occurs n b.tree = brought n b.tokens
  | .braces opening commands close => by
    have start := opening.brought (n := n)
    have inner := commands.account
    have ends := close.brought (n := n)
    simp only [Block.tree, Block.tokens, occurs_node, brought_cons, brought_append, nodes_open,
      nodes_close, List.count_nil]
    omega

theorem Commands.account : (cs : Commands) → occursAll n cs.trees = brought n cs.tokens
  | .nil => rfl
  | .cons c more => by
    have first := c.account
    have others := more.account
    simp only [Commands.trees, Commands.tokens, occursAll_cons, brought_append]
    omega

end

theorem Procedure.account (p : Procedure) : occurs n p.tree = brought n p.tokens := by
  have parameters : occursAll n (p.parameters.map fun x => atom (naming x)) =
      brought n (p.parameters.map naming) := by
    rw [List.map_eq_flatMap (f := naming)]
    exact account_all (fun x => by
      simp only [atom, occurs_node, occursAll_nil, brought_cons, nodes_naming, brought_nil])
      p.parameters
  have body := p.body.account (n := n)
  simp only [Procedure.tree, atom, Procedure.tokens, occurs_node, occursAll_cons, occursAll_nil,
    brought_cons, brought_append, nodes_naming, nodes_def, List.count_cons, List.count_nil]
    at parameters ⊢
  omega

/-- The nodes of a script are those its tokens bring about and the three at the top. -/
theorem Script.account (s : Script) :
    s.tree.preorder.Perm
      (s.tokens.flatMap Token.nodes ++ Node.Group.atTop.map .ofGroup) := by
  rw [List.perm_iff_count]
  intro n
  have blank := brought_lineEnds (n := n) s.blank
  have first := s.first.account (n := n)
  have more := account_all (n := n) Command.account s.more
  have procedures := account_all (n := n) Procedure.account s.procedures
  have last : Token.theEnd.nodes = [] := by decide +kernel
  change occurs n s.tree = _
  rw [List.count_append]
  change _ = brought n s.tokens + _
  simp only [Script.tree, Script.tokens, occurs_node, occursAll_cons, occursAll_nil,
    brought_cons, brought_append, brought_nil, last, Node.Group.atTop, List.map_cons,
    List.map_nil, List.count_cons, List.count_nil]
  omega

end Phrase

namespace Node

theorem Kind.ofKeyword_ne_group (word : String) (g : Group) : ofKeyword word ≠ g.kind := by
  unfold ofKeyword
  split
  case h_18 => cases Palette.ofName? word <;> cases g <;> nofun
  all_goals cases g <;> nofun

theorem Kind.ofSymbol_ne_group (symbol : String) (g : Group) : ofSymbol symbol ≠ g.kind := by
  unfold ofSymbol
  split <;> cases g <;> nofun

/-- A node that groups others is no token's. -/
theorem ofToken_ne_ofGroup (t : Token) (g : Group) : ofToken t ≠ ofGroup g := by
  intro same
  have kind : Kind.ofToken t = g.kind := congrArg Node.kind same
  unfold Kind.ofToken at kind
  split at kind
  case h_3 => exact Kind.ofKeyword_ne_group _ g kind
  case h_4 => exact Kind.ofSymbol_ne_group _ g kind
  all_goals cases g <;> cases kind

end Node

namespace Program

theorem of_at? {forest : Forest Node} {root : Nat} {p : Program}
    (found : at? forest root = .ok p) : p.forest = forest ∧ p.root = root := by
  unfold at? at found
  split at found <;> cases found
  exact ⟨rfl, rfl⟩

/-- The program that is read has the whole forest of the state it was found in. -/
theorem built_of_read {s s' : Grammar.State} {p : Program} (orderly : Grammar.Orderly s [])
    (accepted : read s = .ok p s') :
    s.forest.Grown p.forest [(p.root, p.tree)] ∧ p.forest.Sound := by
  have ran : Grammar.Ran _ _ (Phrase.Script.read s.bound s.feed.remaining)
      (Grammar.recognise .program s) := Grammar.program_ran s.bound s
  have attempted := Grammar.recognise_attempted .program orderly
  simp only [read, Grammar.expect, bind, EStateM.bind] at accepted
  generalize Grammar.recognise .program s = result at ran attempted accepted
  cases attempted with
  | passed | failed => cases accepted
  | @matched s1 pushed count under =>
    generalize Phrase.Script.read s.bound s.feed.remaining = reading at ran
    cases ran with
    | passed missed => cases missed
    | matched good =>
      obtain ⟨-, h, built⟩ := good
      have finished : finish s1 = .ok p s' := accepted
      rw [finish, Grammar.bind_of_ok (Grammar.pop_ok built), Grammar.get_bind] at finished
      cases found : at? s1.forest h with
      | error e =>
        rw [found] at finished
        cases finished
      | ok q =>
        rw [found] at finished
        cases finished
        obtain ⟨same, rfl⟩ := of_at? found
        have shown : s1.forest.tree p.root = .ok p.tree := same ▸ p.tree_eq
        have tree := Except.ok.inj (shown.symm.trans built.grown.tree_eq)
        rw [same, tree]
        exact ⟨built.grown, under.orderly.sound⟩

theorem built_of_parse {source : String} {p : Program} (accepted : parse source = .ok p) :
    Forest.empty.Grown p.forest [(p.root, p.tree)] ∧ p.forest.Sound := by
  unfold parse at accepted
  split at accepted
  · rename_i q s came
    cases accepted
    exact built_of_read (Grammar.orderly_ofSource (complete source)) came
  · cases accepted

structure Accounts (source : String) (p : Program) : Prop where
  /-- no node lies outside the tree -/
  below : ∀ h < p.forest.size, p.forest.Climbs h p.root
  /-- one node each for the tokens that stay, and none besides with a token of the source -/
  own : ∃ hs : List Nat, hs.Nodup ∧
    p.forest.Lists (((tokens source).filter Token.stays).map .ofToken) hs ∧
    ∀ h, h ∈ hs ↔ ∃ t, p.forest.value h = .ok (.ofToken t)
  size : p.forest.size = (tokens source).countP Token.stays +
    (tokens source).count (Phrase.mark "\x7b") + (tokens source).count (Phrase.word "do") +
    2 * (tokens source).count (Phrase.word "def") + 3

/-- No token is lost on the way into the tree, and none gets there twice. -/
theorem parse_accounts {source : String} {p : Program} (accepted : parse source = .ok p) :
    Accounts source p := by
  obtain ⟨s, derived, tree⟩ := derives_of_parse accepted
  obtain ⟨grown, sound⟩ := built_of_parse accepted
  have shown : p.forest.Shows none p.root p.tree := grown.shows (p.root, p.tree) (by simp)
  have all : p.forest.size ≤ p.tree.size := by
    simpa [Forest.size, Forest.empty, Tree.sizeAll] using grown.size.le
  obtain ⟨ks, every, lists, climbs⟩ := sound.census shown all
  have sorted : (((tokens source).filter Token.stays).map Node.ofToken ++
      ((tokens source).flatMap Token.groups ++ Node.Group.atTop).map Node.ofGroup).Perm
      p.tree.preorder := by
    rw [tree, List.map_append, ← List.append_assoc, ← derived.yield]
    exact ((Token.nodes_sorted s.tokens).append_right _).trans s.account.symm
  obtain ⟨js, listed, same⟩ := lists.perm sorted
  obtain ⟨hs, gs, rfl, own, others⟩ := listed.split
  have enumerated : (hs ++ gs).Perm (List.range p.forest.size) := same.trans every
  have distinct : (hs ++ gs).Nodup := enumerated.nodup_iff.mpr List.nodup_range
  constructor
  · intro h inside
    exact climbs h (every.mem_iff.mpr (List.mem_range.mpr inside))
  · refine ⟨hs, (List.nodup_append.mp distinct).1, own, fun h => ⟨?_, ?_⟩⟩
    · intro member
      obtain ⟨v, among, held⟩ := own.of_mem member
      obtain ⟨t, -, rfl⟩ := List.mem_map.mp among
      exact ⟨t, held⟩
    · rintro ⟨t, held⟩
      have inside := List.mem_range.mpr (Forest.lt_size_of_value held)
      rcases List.mem_append.mp (enumerated.mem_iff.mpr inside) with here | there
      · exact here
      · obtain ⟨v, among, other⟩ := others.of_mem there
        obtain ⟨g, -, rfl⟩ := List.mem_map.mp among
        exact absurd (Except.ok.inj (held.symm.trans other)) (Node.ofToken_ne_ofGroup t g)
  · have count := enumerated.length_eq
    rw [List.length_range, List.length_append, ← own.length_eq, ← others.length_eq,
      List.length_map, List.length_map, List.length_append, Token.length_groups,
      ← List.countP_eq_length_filter] at count
    simp only [Node.Group.atTop, List.length_cons, List.length_nil] at count
    omega

theorem parse_accounts_procedure_called : ∃ p,
    parse "if 1 < 2 \x7b\n\x7d\nelse \x7b\n\x7d\ndo f 3\ndef f n \x7b\n\x7d" = .ok p ∧
      p.forest.size = 19 ∧ ∀ h < 19, p.forest.Climbs h p.root := by
  have accepted : (parse
      "if 1 < 2 \x7b\n\x7d\nelse \x7b\n\x7d\ndo f 3\ndef f n \x7b\n\x7d").isOk = true := by
    decide +kernel
  generalize parsed : parse _ = result at accepted ⊢
  cases result with
  | error e => cases accepted
  | ok p =>
    have accounts := parse_accounts parsed
    have size : p.forest.size = 19 := by
      rw [accounts.size]
      decide +kernel
    exact ⟨p, rfl, size, fun h inside => accounts.below h (by omega)⟩

end Program

end TurtleGraphics
