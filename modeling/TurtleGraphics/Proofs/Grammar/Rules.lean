import TurtleGraphics.Grammar.Command
import TurtleGraphics.Proofs.Grammar.Building

/-! Each rule of the grammar goes like the reader of its phrase. -/

namespace TurtleGraphics.Grammar

open Phrase

variable {α : Type} {tree : α → Tree Node}

theorem keyword_reads {text : String} {a : α} (same : tree a = atom (word text)) :
    Reads tree (keyword text) (takeWord text a) :=
  leaf_reads fun t wanted => by rw [Wanted.eq_of_accepts wanted]; exact same

theorem symbol_reads {text : String} {a : α} (same : tree a = atom (mark text)) :
    Reads tree (symbol text) (takeMark text a) :=
  leaf_reads fun t wanted => by rw [Wanted.eq_of_accepts wanted]; exact same

theorem kind_reads {kind : Token.Kind} {f : Token → α}
    (same : ∀ text, tree (f ⟨kind, text⟩) = atom ⟨kind, text⟩) :
    Reads tree (leaf ⟨kind, none⟩) (take ⟨kind, none⟩ f) :=
  leaf_reads fun t wanted => by rw [Wanted.eq_of_accepts_kind wanted]; exact same _

theorem variableName_reads : Reads (fun x => atom (naming x)) variableName takeName :=
  kind_reads fun _ => rfl

theorem addOperator_reads :
    Reads (fun op => atom (mark op.text)) addOperator AddOperator.read :=
  firstOf_reads (.cons (symbol_reads rfl) (.cons (symbol_reads rfl) .nil))

theorem multiplyOperator_reads :
    Reads (fun op => atom (mark op.text)) multiplyOperator MultiplyOperator.read :=
  firstOf_reads (.cons (symbol_reads rfl) (.cons (symbol_reads rfl) .nil))

theorem comparator_reads :
    Reads (fun op => atom (mark op.text)) comparator Comparator.read :=
  firstOf_reads
    (.cons (symbol_reads rfl) (.cons (symbol_reads rfl) (.cons (symbol_reads rfl) .nil)))

theorem Reads.orElse {rule other : Rule Bool} {read further : Reader α}
    (reads : Reads tree rule read) (others : Reads tree other further) :
    Reads tree (rule >>= fun b => if b = true then pure true else other)
      (either [read, further]) := by
  intro s
  rw [either_cons, either_cons, either, Reading.andThen_matched]
  refine (reads s).bind ?_ ?_
  · rintro b s' ⟨rfl, left, built⟩
    exact others.later left built
  · rintro a b s' ⟨rfl, h, built⟩
    exact .matched ⟨rfl, h, built⟩

section Expressions

variable {inner : Rule Bool} {read : Reader Expression}

theorem plainFactor_reads (reads : Reads Expression.tree inner read) :
    Reads Factor.tree (plainFactor inner) (Factor.read read) := by
  refine Reads.orElse (firstOf_reads ?_) ?_
  · exact .cons (kind_reads fun _ => rfl) (.cons (kind_reads fun _ => rfl)
      (.cons (keyword_reads rfl) (.cons (keyword_reads rfl) .nil)))
  · intro s
    refine (accept_drops _ _).first fun _ s1 opened => ?_
    refine reads.expect opened fun e s2 h built => ?_
    refine (accept_drops _ _).expect built fun _ s3 closed => ?_
    exact .matched ⟨rfl, h, closed⟩

def signedTree : Option AddOperator × Factor → Tree Node
  | (none, u) => u.tree
  | (some op, u) => .node (.ofToken (mark op.text)) [u.tree]

theorem factorWith_reads (reads : Reads Expression.tree inner read) :
    Reads signedTree (factorWith inner) (readSigned read) := by
  have plain := plainFactor_reads reads
  intro s
  refine (addOperator_reads s).bind ?_ ?_
  · rintro b s1 ⟨rfl, left, built⟩
    refine (plain.later left built).bind ?_ ?_
    · rintro b s2 ⟨rfl, missed⟩
      exact .passed ⟨rfl, missed⟩
    · rintro u b s2 ⟨rfl, h, more⟩
      exact .matched ⟨rfl, h, more⟩
  · rintro op b s1 ⟨rfl, h, built⟩
    refine (plain s1).bind ?_ ?_
    · rintro b s2 ⟨rfl, left, _⟩
      rw [← left]
      exact .failed (e := s2.error .signedFactor)
    · rintro u b s2 ⟨rfl, k, more⟩
      exact (built.trans more).composed rfl rfl rfl (List.Perm.swap ..) rfl

theorem middle_perm {α : Type} (x y z : α) : [x, y, z].Perm [y, z, x] :=
  (List.perm_append_comm : ([x] ++ [y, z]).Perm ([y, z] ++ [x]))

/-- One round of a chain: it stops here, or it goes on with the larger tree. -/
theorem chain_ran {α β γ : Type} {operator operand : Rule Bool} {readOperator : Reader α}
    {readOperand : Reader β} {node : α → Node} {tree : β → Tree Node} {fault : Fault}
    (operators : Reads (fun a => .node (node a) []) operator readOperator)
    (operands : Reads tree operand readOperand) {found : γ → Unit → State → Prop}
    {missed : Unit → State → Prop} {n : Nat} {s s1 : State} {h : Nat} {left : Tree Node} {c : γ}
    {next : α → β → List Token → Reading γ} (built : Built s s1 [(h, left)])
    (stop : ∀ s2 h, Built s s2 [(h, left)] → found c () s2)
    (further : ∀ a b s2 h, Built s s2 [(h, .node (node a) [left, tree b])] →
      Ran found missed (next a b s2.feed.remaining) (chain operator operand fault n s2)) :
    Ran found missed
      ((readOperator s1.feed.remaining).andThen (.matched c s1.feed.remaining) fun a ts =>
        (readOperand ts).andThen (.failed fault ts) (next a))
      (chain operator operand fault (n + 1) s1) := by
  refine (operators s1).bind ?_ ?_
  · rintro b s2 ⟨rfl, same, nothing⟩
    rw [← same]
    exact .matched (stop s2 h (built.trans nothing))
  · rintro a b s2 ⟨rfl, k, first⟩
    apply ran_expect (operands s2)
    rintro b s3 ⟨l, second⟩
    have all := middle_perm (l, tree b) (k, .node (node a) []) (h, left)
    have positions : arePositions [2, 3, 1] = true := rfl
    obtain ⟨s4, done, feed, whole⟩ :=
      ((built.trans first).trans second).compose_ok positions rfl rfl all
    rw [← feed]
    change Ran _ _ _ (EStateM.bind (compose 2 [3, 1]) _ s3)
    unfold EStateM.bind
    rw [done]
    exact further a b s4 _ whole

theorem products_ran (reads : Reads Expression.tree inner read) (n : Nat) {s s1 : State} {h : Nat}
    {left : Tree Node} (built : Built s s1 [(h, left)]) :
    Ran (fun (more : Factors) _ s2 => ∃ h, Built s s2 [(h, more.tree left)]) (fun _ _ => False)
      (Factors.read read n s1.feed.remaining) (products inner n s1) := by
  induction n generalizing s1 h left with
  | zero => exact .matched ⟨h, built⟩
  | succ n ih =>
    refine chain_ran multiplyOperator_reads (plainFactor_reads reads) built ?_ ?_
    · intro s2 h same
      exact ⟨h, same⟩
    · intro op u s2 h larger
      exact (ih larger).map fun more _ s3 whole => whole

theorem plainTerm_reads (reads : Reads Expression.tree inner read) (n : Nat) :
    Reads (fun term => term.2.tree term.1.tree) (plainTerm inner n) (readPlainTerm read n) := by
  intro s
  refine (plainFactor_reads reads).first fun u s1 h built => ?_
  apply (products_ran reads n built).bind (fun _ _ => False.elim)
  rintro more b s2 whole
  exact .matched ⟨rfl, whole⟩

theorem termWith_reads (reads : Reads Expression.tree inner read) (n : Nat) :
    Reads (fun term => term.2.tree (signedTree term.1)) (termWith inner n) (readTerm read n) := by
  intro s
  refine (factorWith_reads reads).first fun first s1 h built => ?_
  apply (products_ran reads n built).bind (fun _ _ => False.elim)
  rintro more b s2 whole
  exact .matched ⟨rfl, whole⟩

theorem addends_ran (reads : Reads Expression.tree inner read) (m n : Nat) {s s1 : State} {h : Nat}
    {left : Tree Node} (built : Built s s1 [(h, left)]) :
    Ran (fun (further : Addends) _ s2 => ∃ h, Built s s2 [(h, further.tree left)])
      (fun _ _ => False) (Addends.read read m n s1.feed.remaining)
      (chain addOperator (plainTerm inner m) .addend n s1) := by
  induction n generalizing s1 h left with
  | zero => exact .matched ⟨h, built⟩
  | succ n ih =>
    refine chain_ran addOperator_reads (plainTerm_reads reads m) built ?_ ?_
    · intro s2 h same
      exact ⟨h, same⟩
    · intro op term s2 h larger
      exact (ih larger).map fun further _ s3 whole => whole

theorem expressionWith_reads (reads : Reads Expression.tree inner read) (n : Nat) :
    Reads Expression.tree (expressionWith inner n) (Expression.readWith read n) := by
  intro s
  refine (termWith_reads reads n).first fun term s1 h built => ?_
  apply (addends_ran reads n n built).bind (fun _ _ => False.elim)
  obtain ⟨⟨sign, u⟩, more⟩ := term
  rintro further b s2 whole
  cases sign <;> exact .matched ⟨rfl, whole⟩

end Expressions

theorem expression_reads (n : Nat) : Reads Expression.tree (expression n) (Expression.read n) := by
  induction n with
  | zero =>
    intro s
    exact answers_passed s _
  | succ n ih => exact expressionWith_reads ih n

theorem condition_reads (n : Nat) : Reads Condition.tree (condition n) (Condition.read n) := by
  intro s
  refine (expression_reads n).first fun left s1 h1 built => ?_
  refine comparator_reads.expect built fun op s2 h2 built => ?_
  refine (expression_reads n).expect built fun right s3 h3 built => ?_
  exact built.composed rfl rfl rfl (middle_perm ..) rfl

theorem below_perm {α : Type} (xs : List α) : xs.Perm xs.reverse :=
  (List.reverse_perm xs).symm

theorem skipLineEnds_ran (n : Nat) {s s1 : State} (built : Built s s1 []) :
    Ran (fun (_ : List String) _ s2 => Built s s2 []) (fun _ _ => False)
      (many takeEndOfLine n s1.feed.remaining) (skipLineEnds n s1) := by
  induction n generalizing s1 with
  | zero => exact .matched built
  | succ n ih =>
    refine (accept_drops _ _ s1).bind ?_ ?_
    · rintro b s2 ⟨rfl, left, nothing⟩
      rw [← left]
      exact .matched (built.trans nothing)
    · rintro text b s2 ⟨rfl, nothing⟩
      exact (ih (built.trans nothing)).map fun _ _ _ whole => whole

theorem lineEnd_drops (n : Nat) : Drops (lineEnd n) (LineEnd.read n) := by
  intro s
  refine (accept_drops _ _).first fun first s1 built => ?_
  apply (skipLineEnds_ran n built).bind (fun _ _ => False.elim)
  rintro more b s2 whole
  exact .matched ⟨rfl, whole⟩

theorem move_reads (n : Nat) : Reads Command.tree (move n) (Command.readMove n) := by
  have heads : Reads (fun m => atom (word m.text))
      (firstOf [keyword "forward", keyword "right", keyword "left", keyword "face"])
      (either [takeWord "forward" Move.forward, takeWord "right" .right, takeWord "left" .left,
        takeWord "face" .face]) :=
    firstOf_reads (.cons (keyword_reads rfl) (.cons (keyword_reads rfl)
      (.cons (keyword_reads rfl) (.cons (keyword_reads rfl) .nil))))
  intro s
  refine heads.first fun m s1 h built => ?_
  refine (expression_reads n).expect built fun e s2 k built => ?_
  refine (lineEnd_drops n).expect built fun close s3 built => ?_
  exact built.composed rfl rfl rfl (below_perm _) rfl

theorem bare_reads (b : Bare) (n : Nat) :
    Reads Command.tree (bare b.text n) (Command.readBare b n) := by
  have head : Reads (fun _ => atom (word b.text)) (keyword b.text) (takeWord b.text ()) :=
    keyword_reads rfl
  intro s
  refine head.first fun _ s1 h built => ?_
  refine (lineEnd_drops n).expect built fun close s2 built => ?_
  exact .matched ⟨rfl, h, built⟩

theorem head_reads (text : String) :
    Reads (fun _ => atom (word text)) (keyword text) (takeWord text ()) :=
  keyword_reads rfl

theorem jump_reads (n : Nat) : Reads Command.tree (jump n) (Command.readJump n) := by
  intro s
  refine (head_reads "jump").first fun _ s1 h built => ?_
  refine (expression_reads n).expect built fun x s2 k built => ?_
  refine (expression_reads n).expect built fun y s3 l built => ?_
  refine (lineEnd_drops n).expect built fun close s4 built => ?_
  exact built.composed rfl rfl rfl (below_perm _) rfl

theorem assign_reads (n : Nat) : Reads Command.tree (assign n) (Command.readAssign n) := by
  intro s
  refine (head_reads "set").first fun _ s1 h built => ?_
  refine variableName_reads.expect built fun name s2 k built => ?_
  refine (expression_reads n).expect built fun e s3 l built => ?_
  refine (lineEnd_drops n).expect built fun close s4 built => ?_
  exact built.composed rfl rfl rfl (below_perm _) rfl

theorem call_reads (n : Nat) : Reads Command.tree (call n) (Command.readCall n) := by
  intro s
  refine (head_reads "do").first fun _ s1 h built => ?_
  refine variableName_reads.expect built fun name s2 k built => ?_
  apply (gather_ran (expression_reads n) n s2).bind (fun _ _ => False.elim)
  rintro arguments hs s3 ⟨stack, made, rfl, trees, grown⟩
  refine ran_grouped stack grown fun s4 l grouped => ?_
  rw [← trees] at grouped
  refine (lineEnd_drops n).expect (built.trans grouped) fun close s5 built => ?_
  exact built.composed rfl rfl rfl (below_perm _) rfl

theorem shade_reads (n : Nat) : Reads Shade.tree (color n) (Shade.read n) := by
  have names : List.Forall₂ (Reads Shade.tree) (Palette.all.map (keyword ·.name))
      (Palette.all.map fun c => takeWord c.name (.named c)) := by
    rw [List.forall₂_map_left_iff, List.forall₂_map_right_iff, List.forall₂_same]
    exact fun c _ => keyword_reads rfl
  apply Reads.orElse (firstOf_reads names)
  intro s
  refine (head_reads "color").first fun _ s1 h built => ?_
  refine (expression_reads n).expect built fun red s2 k built => ?_
  refine (expression_reads n).expect built fun green s3 l built => ?_
  refine (expression_reads n).expect built fun blue s4 m built => ?_
  exact built.composed rfl rfl rfl (below_perm _) rfl

section Blocks

variable {rule : Rule Bool} {block : Reader Block}

theorem timesWith_reads (reads : Reads Block.tree rule block) (n : Nat) :
    Reads Command.tree (timesWith rule n) (Command.readTimes block n) := by
  intro s
  refine (head_reads "repeat").first fun _ s1 h built => ?_
  refine (expression_reads n).expect built fun e s2 k built => ?_
  refine reads.expect built fun body s3 l built => ?_
  exact built.composed rfl rfl rfl (below_perm _) rfl

theorem loopWith_reads (reads : Reads Block.tree rule block) (n : Nat) :
    Reads Command.tree (loopWith rule n) (Command.readLoop block n) := by
  intro s
  refine (head_reads "while").first fun _ s1 h built => ?_
  refine (condition_reads n).expect built fun c s2 k built => ?_
  refine reads.expect built fun body s3 l built => ?_
  exact built.composed rfl rfl rfl (below_perm _) rfl

theorem branchWith_reads (reads : Reads Block.tree rule block) (n : Nat) :
    Reads Command.tree (branchWith rule n) (Command.readBranch block n) := by
  intro s
  refine (head_reads "if").first fun _ s1 h built => ?_
  refine (condition_reads n).expect built fun c s2 k built => ?_
  refine reads.expect built fun body s3 l built => ?_
  refine (accept_drops _ _ s3).bind ?_ ?_
  · rintro b s4 ⟨rfl, left, nothing⟩
    rw [← left]
    exact (built.trans nothing).composed rfl rfl rfl (below_perm _) rfl
  · rintro _ b s4 ⟨rfl, nothing⟩
    refine reads.expect (built.trans nothing) fun otherwise s5 m built => ?_
    exact built.composed rfl rfl rfl (below_perm _) rfl

theorem commandWith_reads (reads : Reads Block.tree rule block) (n : Nat) :
    Reads Command.tree (commandWith rule n) (Command.readWith block n) := by
  refine Reads.orElse (firstOf_reads ?_) ?_
  · exact .cons (move_reads n) (.cons (bare_reads .penUp n) (.cons (bare_reads .penDown n)
      (.cons (bare_reads .home n) (.cons (jump_reads n) (.cons (assign_reads n)
        (.cons (timesWith_reads reads n) (.cons (loopWith_reads reads n)
          (.cons (branchWith_reads reads n) (.cons (call_reads n) .nil)))))))))
  · intro s
    refine (shade_reads n).first fun shade s1 h built => ?_
    refine (lineEnd_drops n).expect built fun close s2 built => ?_
    exact .matched ⟨rfl, h, built⟩

theorem blockOf_reads {command : Reader Command} (reads : Reads Command.tree rule command)
    (n : Nat) : Reads Block.tree (blockOf rule n) (Block.readOf command n) := by
  intro s
  refine (accept_drops _ _).first fun _ s1 built => ?_
  refine (lineEnd_drops n).expect built fun opening s2 built => ?_
  apply (gather_ran reads n s2).bind (fun _ _ => False.elim)
  rintro commands hs s3 ⟨stack, made, rfl, trees, grown⟩
  refine ran_grouped stack grown fun s4 h grouped => ?_
  rw [← trees, ← Commands.trees_ofList] at grouped
  refine (accept_drops _ _).expect (built.trans grouped) fun _ s5 built => ?_
  refine (lineEnd_drops n).expect built fun close s6 built => ?_
  exact .matched ⟨rfl, h, built⟩

end Blocks

theorem command_reads (n : Nat) : Reads Command.tree (command n) (Command.read n) := by
  induction n with
  | zero =>
    intro s
    exact answers_passed s _
  | succ n ih => exact commandWith_reads (blockOf_reads ih n) (n + 1)

theorem block_reads (n : Nat) : Reads Block.tree (block n) (Block.read n) :=
  blockOf_reads (command_reads n) n

theorem procedure_reads (n : Nat) : Reads Procedure.tree (procedure n) (Procedure.read n) := by
  intro s
  refine (head_reads "def").first fun _ s1 h built => ?_
  apply ran_expect (variableName_reads s1)
  rintro name s2 ⟨k, named⟩
  apply ran_pop named
  refine (gather_ran variableName_reads n { s2 with stack := s1.stack }).bind
    (fun _ _ => False.elim) ?_
  rintro parameters hs s3 ⟨stack, made, rfl, trees, grown⟩
  refine ran_group (named.grown.trans grown) fun s4 l same listed => ?_
  have inOrder := listed.perm (List.Perm.swap ..)
  refine ran_grouped (s := s1) (same.trans stack) inOrder fun s5 m headed => ?_
  simp only [← trees] at headed
  refine (block_reads n).expect (built.trans headed) fun body s6 _ built => ?_
  exact built.composed rfl rfl rfl (below_perm _) rfl

theorem trimmedProgram_reads (n : Nat) (blank : List String) :
    Reads Script.tree (trimmedProgram n) (Script.readTrimmed n blank) := by
  intro s
  refine (command_reads n).first fun first s1 h built => ?_
  apply ran_pop built
  refine (gather_ran (command_reads n) n { s1 with stack := s.stack }).bind
    (fun _ _ => False.elim) ?_
  rintro more hs s2 ⟨stack, made, rfl, trees, grown⟩
  apply (gather_ran (procedure_reads n) n s2).bind (fun _ _ => False.elim)
  rintro procedures hs s3 ⟨stack', made', rfl, trees', grown'⟩
  apply ran_expect (accept_drops _ _ s3)
  intro _ s4 nothing
  have all := ((built.grown.trans grown).trans grown').trans nothing.grown
  have inOrder : (made' ++ (made ++ [(h, first.tree)])).Perm (((h, first.tree) :: made) ++ made') :=
    List.perm_append_comm.trans ((List.perm_append_singleton _ _).append_right _)
  let whole : Script := ⟨blank, first, more, procedures⟩
  refine ran_group (r := .matched whole) (all.perm inOrder) fun s5 b same blocked => ?_
  have next := blocked.perm (List.perm_append_singleton _ _).symm
  refine ran_group (r := .matched whole) next fun s6 l same' listed => ?_
  have parts := listed.perm (List.Perm.swap ..)
  have stack6 : s6.stack = s.stack := by
    rw [same', same, nothing.stack]
    exact stack'.trans stack
  refine ran_grouped (r := .matched whole) stack6 parts fun s7 m done => .matched ⟨rfl, m, ?_⟩
  simp only [List.map_cons, List.map_nil, ← trees, ← trees'] at done
  exact done

theorem program_ran (n : Nat) (s : State) :
    Ran (fun d b s' => b = true ∧ ∃ h, Built s s' [(h, d.tree)]) (fun b _ => b = false)
      (Script.read n s.feed.remaining) (program n s) := by
  refine (lineEnd_drops n s).bind ?_ ?_
  · rintro b s1 ⟨rfl, left, built⟩
    exact ((trimmedProgram_reads n []).later left built).imp (fun _ _ _ => id)
      fun _ _ missed => missed.1
  · rintro l b s1 ⟨rfl, built⟩
    refine (trimmedProgram_reads n (l.first :: l.more) s1).imp ?_ fun _ _ missed => missed.1
    rintro d b s2 ⟨rfl, h, whole⟩
    exact ⟨rfl, h, built.trans whole⟩

end TurtleGraphics.Grammar
