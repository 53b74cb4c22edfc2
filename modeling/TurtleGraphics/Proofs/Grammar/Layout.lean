import TurtleGraphics.Proofs.Grammar.Parse
import TurtleGraphics.Proofs.Grammar.Twins

/-!
The layout of a source means nothing to the parser. Two sources that have the same tokens, apart
from line ends before the first and from how many of them follow one another, are both the same
program, or have the same fault over the same trees.
-/

namespace TurtleGraphics

namespace Grammar

open Twins

theorem firstOf_leaves_alike {n m : Nat} (ws : List Wanted) (inside : ws.all Wanted.onLine = true) :
    Alike n m (firstOf (ws.map leaf)) (firstOf (ws.map leaf)) := by
  apply firstOf_alike
  rw [List.forall₂_map_left_iff, List.forall₂_map_right_iff, List.forall₂_same]
  exact fun w member => leaf_alike w (List.all_eq_true.mp inside w member)

theorem addOperator_alike {n m : Nat} : Alike n m addOperator addOperator :=
  firstOf_leaves_alike [⟨.symbol, some "+"⟩, ⟨.symbol, some "-"⟩] rfl

theorem multiplyOperator_alike {n m : Nat} : Alike n m multiplyOperator multiplyOperator :=
  firstOf_leaves_alike [⟨.symbol, some "*"⟩, ⟨.symbol, some "/"⟩] rfl

theorem comparator_alike {n m : Nat} : Alike n m comparator comparator :=
  firstOf_leaves_alike [⟨.symbol, some "<"⟩, ⟨.symbol, some "="⟩, ⟨.symbol, some ">"⟩] rfl

section Expressions

variable {inner inner' : Rule Bool} {n m : Nat}

theorem plainFactor_alike (alike : Alike n m inner inner') :
    Alike (n + 1) (m + 1) (plainFactor inner) (plainFactor inner') := by
  have plain : Alike (n + 1) (m + 1)
      (firstOf [variableName, number, keyword "getX", keyword "getY"])
      (firstOf [variableName, number, keyword "getX", keyword "getY"]) :=
    firstOf_leaves_alike [⟨.name, none⟩, ⟨.number, none⟩, ⟨.keyword, some "getX"⟩,
      ⟨.keyword, some "getY"⟩] rfl
  apply plain.orElse
  intro t room
  apply (accept_alike _ rfl).first room
  intro t1 past
  apply alike.expect past room
  intro t2 past
  apply (accept_alike _ rfl).expect past room
  intro t3 past
  exact .ok t3 past

theorem factorWith_alike (alike : Alike n m inner inner') :
    Alike (n + 1) (m + 1) (factorWith inner) (factorWith inner') := by
  have plain := plainFactor_alike alike
  intro t room
  apply (addOperator_alike t room).bind
  rintro (_ | _) t1 told
  · apply (plain t1 (room.since told)).bind
    rintro (_ | _) t2 further
    · exact .ok t2 (told.trans further)
    · exact .ok t2 (told.past further)
  · have past : t.Past t1 := told
    apply (plain t1 (room.since past.since)).bind
    rintro (_ | _) t2 further
    · exact both_fail t2 .signedFactor
    · exact composed_both (past.on (Past.since further)) 2 [1]

theorem products_both (alike : Alike n m inner inner') {t : Twins} (room : t.Within n m) :
    Both (fun _ => t.Since) (products inner n t.one) (products inner' m t.other) :=
  multiplyOperator_alike.chain (plainFactor_alike alike) room.succ room .multiplier

theorem termWith_alike (alike : Alike n m inner inner') :
    Alike (n + 1) (m + 1) (termWith inner n) (termWith inner' m) := by
  intro t room
  apply (factorWith_alike alike).first room
  intro t1 past
  apply (products_both alike (room.past past)).bind
  intro _ t2 since
  exact .ok t2 (past.on since)

theorem plainTerm_alike (alike : Alike n m inner inner') :
    Alike (n + 1) (m + 1) (plainTerm inner n) (plainTerm inner' m) := by
  intro t room
  apply (plainFactor_alike alike).first room
  intro t1 past
  apply (products_both alike (room.past past)).bind
  intro _ t2 since
  exact .ok t2 (past.on since)

theorem expressionWith_alike (alike : Alike n m inner inner') :
    Alike (n + 1) (m + 1) (expressionWith inner n) (expressionWith inner' m) := by
  intro t room
  apply (termWith_alike alike).first room
  intro t1 past
  have inside := room.past past
  apply (addOperator_alike.chain (plainTerm_alike alike) inside.succ inside .addend).bind
  intro _ t2 since
  exact .ok t2 (past.on since)

end Expressions

theorem expression_alike (n m : Nat) : Alike n m (expression n) (expression m) := by
  have step (n m : Nat) (alike : Alike n m (expression n) (expression m)) :
      Alike (n + 1) (m + 1) (expression (n + 1)) (expression (m + 1)) :=
    expressionWith_alike alike
  exact alike_of_steps step n m

theorem condition_alike (n m : Nat) : Alike n m (condition n) (condition m) := by
  intro t room
  apply (expression_alike n m).first room
  intro t1 past
  apply comparator_alike.expect past room.succ
  intro t2 past
  apply (expression_alike n m).expect past room.succ
  intro t3 past
  exact composed_both past 2 [3, 1]

theorem keyword_alike {n m : Nat} (word : String) : Alike n m (keyword word) (keyword word) :=
  leaf_alike _ rfl

theorem variableName_alike {n m : Nat} : Alike n m variableName variableName :=
  leaf_alike _ rfl

theorem move_alike (n m : Nat) : Alike n m (move n) (move m) := by
  have heads : Alike n m
      (firstOf [keyword "forward", keyword "right", keyword "left", keyword "face"])
      (firstOf [keyword "forward", keyword "right", keyword "left", keyword "face"]) :=
    firstOf_leaves_alike [⟨.keyword, some "forward"⟩, ⟨.keyword, some "right"⟩,
      ⟨.keyword, some "left"⟩, ⟨.keyword, some "face"⟩] rfl
  intro t room
  apply heads.first room
  intro t1 past
  apply (expression_alike n m).expect past room.succ
  intro t2 past
  apply lineEnd_alike.expect past room.succ
  intro t3 past
  exact composed_both past 2 [1]

theorem color_alike (n m : Nat) : Alike n m (color n) (color m) := by
  have names : Alike n m (firstOf (Palette.all.map (keyword ·.name)))
      (firstOf (Palette.all.map (keyword ·.name))) := by
    have leaves := firstOf_leaves_alike (n := n) (m := m)
      (Palette.all.map fun c => ⟨.keyword, some c.name⟩) rfl
    rwa [List.map_map] at leaves
  apply names.orElse
  intro t room
  apply (keyword_alike "color").first room
  intro t1 past
  apply (expression_alike n m).expect past room.succ
  intro t2 past
  apply (expression_alike n m).expect past room.succ
  intro t3 past
  apply (expression_alike n m).expect past room.succ
  intro t4 past
  exact composed_both past 4 [3, 2, 1]

theorem bare_alike (word : String) (n m : Nat) : Alike n m (bare word n) (bare word m) := by
  intro t room
  apply (keyword_alike word).first room
  intro t1 past
  apply lineEnd_alike.expect past room.succ
  intro t2 past
  exact .ok t2 past

theorem jump_alike (n m : Nat) : Alike n m (jump n) (jump m) := by
  intro t room
  apply (keyword_alike "jump").first room
  intro t1 past
  apply (expression_alike n m).expect past room.succ
  intro t2 past
  apply (expression_alike n m).expect past room.succ
  intro t3 past
  apply lineEnd_alike.expect past room.succ
  intro t4 past
  exact composed_both past 3 [2, 1]

theorem assign_alike (n m : Nat) : Alike n m (assign n) (assign m) := by
  intro t room
  apply (keyword_alike "set").first room
  intro t1 past
  apply variableName_alike.expect past room.succ
  intro t2 past
  apply (expression_alike n m).expect past room.succ
  intro t3 past
  apply lineEnd_alike.expect past room.succ
  intro t4 past
  exact composed_both past 3 [2, 1]

theorem call_alike (n m : Nat) : Alike n m (call n) (call m) := by
  intro t room
  apply (keyword_alike "do").first room
  intro t1 past
  apply variableName_alike.expect past room.succ
  intro t2 past
  have inside := room.since past.since
  apply ((expression_alike n m).gather inside inside).bind
  intro arguments t3 since
  apply (group_apart .list arguments).next (past.on since)
  intro list t4 past
  apply (push_apart list).next past
  intro _ t5 past
  apply lineEnd_alike.expect past room.succ
  intro t6 past
  exact composed_both past 3 [2, 1]

theorem blockOf_alike {command command' : Rule Bool} {n m : Nat}
    (alike : Alike n m command command') :
    Alike n m (blockOf command n) (blockOf command' m) := by
  intro t room
  apply (accept_alike _ rfl).first room
  intro t1 past
  apply lineEnd_alike.expect past room.succ
  intro t2 past
  have inside := room.since past.since
  apply (alike.gather inside inside).bind
  intro commands t3 since
  apply (group_apart .block commands).next (past.on since)
  intro block t4 past
  apply (push_apart block).next past
  intro _ t5 past
  apply (accept_alike _ rfl).expect past room.succ
  intro t6 past
  apply lineEnd_alike.expect past room.succ
  intro t7 past
  exact .ok t7 past

section Blocks

variable {block block' : Rule Bool} {n m : Nat}

theorem timesWith_alike (alike : Alike n m block block') :
    Alike (n + 1) (m + 1) (timesWith block (n + 1)) (timesWith block' (m + 1)) := by
  intro t room
  apply (keyword_alike "repeat").first room
  intro t1 past
  apply (expression_alike (n + 1) (m + 1)).expect past room.succ
  intro t2 past
  apply alike.expect past room
  intro t3 past
  exact composed_both past 3 [2, 1]

theorem loopWith_alike (alike : Alike n m block block') :
    Alike (n + 1) (m + 1) (loopWith block (n + 1)) (loopWith block' (m + 1)) := by
  intro t room
  apply (keyword_alike "while").first room
  intro t1 past
  apply (condition_alike (n + 1) (m + 1)).expect past room.succ
  intro t2 past
  apply alike.expect past room
  intro t3 past
  exact composed_both past 3 [2, 1]

theorem branchWith_alike (alike : Alike n m block block') :
    Alike (n + 1) (m + 1) (branchWith block (n + 1)) (branchWith block' (m + 1)) := by
  intro t room
  apply (keyword_alike "if").first room
  intro t1 past
  apply (condition_alike (n + 1) (m + 1)).expect past room.succ
  intro t2 past
  apply alike.expect past room
  intro t3 past
  have otherwise : Alike (n + 1) (m + 1) (accept ⟨.keyword, some "else"⟩)
      (accept ⟨.keyword, some "else"⟩) := accept_alike _ rfl
  apply (otherwise t3 (room.since past.since)).bind
  rintro (_ | _) t4 told
  · exact composed_both (past.on told) 3 [2, 1]
  · apply alike.expect (past.on (Past.since told)) room
    intro t5 past
    exact composed_both past 4 [3, 2, 1]

theorem commandWith_alike (alike : Alike n m block block') :
    Alike (n + 1) (m + 1) (commandWith block (n + 1)) (commandWith block' (m + 1)) := by
  apply (firstOf_alike ?_).orElse
  · intro t room
    apply (color_alike (n + 1) (m + 1)).first room
    intro t1 past
    apply lineEnd_alike.expect past room.succ
    intro t2 past
    exact .ok t2 past
  · simp only [List.forall₂_cons, List.forall₂_nil_left_iff]
    exact ⟨move_alike _ _, bare_alike _ _ _, bare_alike _ _ _, bare_alike _ _ _, jump_alike _ _,
      assign_alike _ _, timesWith_alike alike, loopWith_alike alike, branchWith_alike alike,
      call_alike _ _, trivial⟩

end Blocks

theorem command_alike (n m : Nat) : Alike n m (command n) (command m) := by
  have step (n m : Nat) (alike : Alike n m (command n) (command m)) :
      Alike (n + 1) (m + 1) (command (n + 1)) (command (m + 1)) :=
    commandWith_alike (blockOf_alike alike)
  exact alike_of_steps step n m

theorem procedure_alike (n m : Nat) : Alike n m (procedure n) (procedure m) := by
  intro t room
  apply (keyword_alike "def").first room
  intro t1 past
  apply variableName_alike.expect past room.succ
  intro t2 past
  apply pop_apart.next past
  intro name t3 past
  have inside := room.since past.since
  apply (variableName_alike.gather inside inside).bind
  intro parameters t4 since
  apply (group_apart .list parameters).next (past.on since)
  intro list t5 past
  apply (group_apart .header [name, list]).next past
  intro header t6 past
  apply (push_apart header).next past
  intro _ t7 past
  apply (blockOf_alike (command_alike n m)).expect past room.succ
  intro t8 past
  exact composed_both past 3 [2, 1]

theorem trimmedProgram_alike (n m : Nat) : Alike n m (trimmedProgram n) (trimmedProgram m) := by
  intro t room
  apply (command_alike n m).first room
  intro t1 past
  apply pop_apart.next past
  intro first t2 past
  have inside := room.since past.since
  apply ((command_alike n m).gather inside inside).bind
  intro rest t3 since
  have past := past.on since
  have inside := room.since past.since
  apply ((procedure_alike n m).gather inside inside).bind
  intro procedures t4 since
  have past := past.on since
  -- the end of input may be used up without there being fewer tokens left
  have ended : Both (fun _ => t4.Since) (accept ⟨.endOfInput, none⟩ t4.one)
      (accept ⟨.endOfInput, none⟩ t4.other) := accept_both (by decide) t4
  apply (expect_both ended .unexpectedTerms).bind
  intro _ t5 since
  apply (group_apart .block (first :: rest)).next (past.on since)
  intro block t6 past
  apply (group_apart .list procedures).next past
  intro list t7 past
  apply (group_apart .program [block, list]).next past
  intro program t8 past
  apply (push_apart program).next past
  intro _ t9 past
  exact .ok t9 past

/-- Blank lines before the first command are used up before anything else. -/
theorem program_both {n m : Nat} {first second : Feed} (forest : Forest Node) (stack : List Nat)
    (tokens : Token.dense (second.remaining.dropWhile Token.isLineEnd) =
      Token.dense (first.remaining.dropWhile Token.isLineEnd))
    (room : first.left < n) (room' : second.left < m) :
    ∃ t, Both (Told t) (program n ⟨first, forest, stack⟩) (program m ⟨second, forest, stack⟩) := by
  obtain ⟨first', done, rest, -⟩ := lineEnd_all n ⟨first, forest, stack⟩ room
  obtain ⟨second', done', rest', -⟩ := lineEnd_all m ⟨second, forest, stack⟩ room'
  rw [← rest, ← rest'] at tokens
  let t : Twins := ⟨first', second', forest, stack, tokens⟩
  have inside : t.Within n m :=
    ⟨Nat.lt_of_le_of_lt (Feed.left_dropWhile rest) room,
      Nat.lt_of_le_of_lt (Feed.left_dropWhile rest') room'⟩
  rw [program, bind_of_ok done, program, bind_of_ok done']
  exact ⟨t, trimmedProgram_alike n m t inside⟩

end Grammar

namespace Program

open Grammar (Both Twins)

/-- The tokens of a source apart from its layout: no line end comes first, and those that follow one
another count as one. -/
def content (source : String) : List Token :=
  Token.dense ((tokens source).dropWhile Token.isLineEnd)

theorem finish_both (t : Twins) : Both (fun _ _ => True) (finish t.one) (finish t.other) := by
  apply (Grammar.pop_apart t).bind
  intro root t' _
  rw [Grammar.get_bind, Grammar.get_bind]
  simp only [Twins.one, Twins.other]
  cases at? t'.forest root with
  | ok p => exact .ok t' trivial
  | error e => exact Grammar.both_fail t' (.refused e)

/-- The end of input is a token that is not counted. -/
theorem left_lt_bound (source : String) :
    (Grammar.State.ofSource (complete source)).feed.left <
      (Grammar.State.ofSource (complete source)).bound := by
  obtain ⟨others, whole, -⟩ := Lexeme.tokens_ofSource keywords (complete source)
  have remaining : (Grammar.State.ofSource (complete source)).feed.remaining =
      others ++ [Token.theEnd] := whole
  rw [Grammar.State.bound, Feed.left, remaining, List.countP_append, List.length_append]
  have fewer : others.countP (fun t => t.kind != .endOfInput) ≤ others.length :=
    List.countP_le_length
  have last : [Token.theEnd].countP (fun t => t.kind != .endOfInput) = 0 := rfl
  rw [last, List.length_singleton]
  omega

theorem read_both {source source' : String} (same : content source = content source') :
    Both (fun _ _ => True) (read (.ofSource (complete source)))
      (read (.ofSource (complete source'))) := by
  let start := Grammar.State.ofSource (complete source)
  let start' := Grammar.State.ofSource (complete source')
  have tokens : Token.dense (start'.feed.remaining.dropWhile Token.isLineEnd) =
      Token.dense (start.feed.remaining.dropWhile Token.isLineEnd) := same.symm
  obtain ⟨t, both⟩ := Grammar.program_both .empty [] tokens (left_lt_bound source)
    (left_lt_bound source')
  have recognised : Both (Grammar.Told t) (Grammar.recognise .program start)
      (Grammar.recognise .program start') := both
  apply (Grammar.expect_both recognised .noCommand).bind
  intro _ t' _
  exact finish_both t'

/-- Sources that differ in layout only are the same program, or are refused for the same fault over
the same trees, on whatever line that is. -/
theorem parse_ignores_layout {source source' : String} (same : content source = content source') :
    (∃ p, parse source = .ok p ∧ parse source' = .ok p) ∨
      ∃ e line, parse source = .error e ∧ parse source' = .error { e with line } := by
  have both := read_both same
  unfold parse
  generalize read (.ofSource (complete source)) = result at both
  generalize read (.ofSource (complete source')) = result' at both
  cases both with
  | @ok p t _ => exact .inl ⟨p, rfl, rfl⟩
  | @failed e d _ _ fault stack =>
    obtain ⟨_, line, _⟩ := d
    cases fault
    cases stack
    exact .inr ⟨e, line, rfl, rfl⟩

theorem parse_ignores_layout_commented : ∃ p,
    parse "forward 10\nhome" = .ok p ∧
      parse "\n// ahead\n  forward   10 // steps\n\n\n home\n" = .ok p := by
  have same : content "forward 10\nhome" =
      content "\n// ahead\n  forward   10 // steps\n\n\n home\n" := by
    decide +kernel
  rcases parse_ignores_layout same with accepted | ⟨e, line, refused, -⟩
  · exact accepted
  · have accepted : (parse "forward 10\nhome").isOk = true := by decide +kernel
    rw [refused] at accepted
    cases accepted

end Program

end TurtleGraphics
