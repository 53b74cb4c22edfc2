import TurtleGraphics.Grammar.Command
import TurtleGraphics.Proofs.Grammar.Stack

/-!
Every rule of the grammar is tidy: it leaves its tree on the stack, or everything as it was, or it
fails with a fault of the text. Only a program may drop blank lines and then not match.
-/

namespace TurtleGraphics.Grammar

theorem firstOf_leaves (ws : List Wanted) (bound : Nat) (some_rule : ws ≠ []) :
    Tidy 1 bound (firstOf (ws.map leaf)) := by
  obtain ⟨w, others, rfl⟩ := List.exists_cons_of_ne_nil some_rule
  rw [List.map_cons]
  apply firstOf_tidy
  rw [← List.map_cons, List.forall_mem_map]
  exact fun w _ => leaf_tidy w bound

theorem Tidy.orElse {rule other : Rule Bool} {count bound : Nat} (tidy : Tidy count bound rule)
    (others : Tidy count bound other) :
    Tidy count bound (rule >>= fun b => if b = true then pure true else other) := by
  intro s orderly room
  apply (tidy s orderly room).bind
  · intro s1 idle
    have fewer : s1.feed.remaining.length ≤ bound := by rwa [idle.remaining]
    exact (others s1 (idle.orderly orderly) fewer).idle idle
  · intro s1 pushed count under
    exact .matched count under

/-- With no token to come a rule that does nothing has at least looked. -/
theorem nothing_tidy (count : Nat) : Tidy count 0 (pure false) := by
  intro s _ room
  have none_left := List.eq_nil_of_length_eq_zero (Nat.le_zero.mp room)
  exact .passed ⟨rfl, rfl, rfl, .inl none_left⟩

theorem addOperator_tidy (bound : Nat) : Tidy 1 bound addOperator :=
  firstOf_leaves [⟨.symbol, some "+"⟩, ⟨.symbol, some "-"⟩] bound (by simp)

theorem multiplyOperator_tidy (bound : Nat) : Tidy 1 bound multiplyOperator :=
  firstOf_leaves [⟨.symbol, some "*"⟩, ⟨.symbol, some "/"⟩] bound (by simp)

theorem comparator_tidy (bound : Nat) : Tidy 1 bound comparator :=
  firstOf_leaves [⟨.symbol, some "<"⟩, ⟨.symbol, some "="⟩, ⟨.symbol, some ">"⟩] bound
    (by simp)

section Expressions

variable {inner : Rule Bool} {bound : Nat}

theorem plainFactor_tidy (tidy : Tidy 1 bound inner) : Tidy 1 (bound + 1) (plainFactor inner) := by
  have plain : Tidy 1 (bound + 1)
      (firstOf [variableName, number, keyword "getX", keyword "getY"]) :=
    firstOf_leaves [⟨.name, none⟩, ⟨.number, none⟩, ⟨.keyword, some "getX"⟩,
      ⟨.keyword, some "getY"⟩] _ (by simp)
  apply plain.orElse
  intro s orderly room
  apply (accept_tidy _ _).firstNone orderly room
  intro s1 under
  apply tidy.expectTree under room rfl
  intro s2 h under
  apply (accept_tidy _ bound).expectNone under room rfl
  intro s3 under
  exact .matched rfl under

theorem factorWith_tidy (tidy : Tidy 1 bound inner) : Tidy 1 (bound + 1) (factorWith inner) := by
  have plain := plainFactor_tidy tidy
  intro s orderly room
  apply (addOperator_tidy (bound + 1) s orderly room).bind
  · intro s1 idle
    apply Ends.idle idle
    apply (plain s1 (idle.orderly orderly) (by rwa [idle.remaining])).bind
    · intro s2 idle
      exact .passed idle
    · intro s2 pushed count under
      exact .matched count under
  · intro s1 pushed count under
    obtain ⟨sign, rfl⟩ := List.length_eq_one_iff.mp count
    apply under.bind ((plain.mono (Nat.le_succ bound)).ends under room)
    · intro s2 under peeked
      have ordinary : Fault.signedFactor.isInternal = false := rfl
      exact .failed ordinary under peeked
    · intro s2 more count under
      obtain ⟨h, rfl⟩ := List.length_eq_one_iff.mp count
      exact under.composed rfl rfl

theorem products_ends (tidy : Tidy 1 bound inner) {s s1 : State} {h : Nat} (n : Nat)
    (room : s.feed.remaining.length ≤ bound + 1) (under : Underway s s1 [] [h]) {k : Rule Bool}
    (yes : ∀ s2 h, Underway s s2 [] [h] → Ends 1 s (k s2)) :
    Ends 1 s ((products inner n >>= fun _ => k) s1) :=
  (multiplyOperator_tidy bound).chain ((plainFactor_tidy tidy).mono (Nat.le_succ bound)) room rfl
    under yes

theorem termWith_tidy (tidy : Tidy 1 bound inner) (n : Nat) :
    Tidy 1 (bound + 1) (termWith inner n) := by
  intro s orderly room
  apply (factorWith_tidy tidy).firstTree orderly room
  intro s1 h under
  apply products_ends tidy n room under
  intro s2 h under
  exact .matched rfl under

theorem plainTerm_tidy (tidy : Tidy 1 bound inner) (n : Nat) :
    Tidy 1 (bound + 1) (plainTerm inner n) := by
  intro s orderly room
  apply (plainFactor_tidy tidy).firstTree orderly room
  intro s1 h under
  apply products_ends tidy n room under
  intro s2 h under
  exact .matched rfl under

theorem expressionWith_tidy (tidy : Tidy 1 bound inner) (n : Nat) :
    Tidy 1 (bound + 1) (expressionWith inner n) := by
  have addends := (plainTerm_tidy tidy n).mono (Nat.le_succ bound)
  intro s orderly room
  apply (termWith_tidy tidy n).firstTree orderly room
  intro s1 h under
  apply (addOperator_tidy bound).chain addends room rfl under
  intro s2 h under
  exact .matched rfl under

end Expressions

theorem expression_tidy (n : Nat) : Tidy 1 n (expression n) := by
  induction n with
  | zero => exact nothing_tidy 1
  | succ n ih => exact expressionWith_tidy ih n

theorem term_tidy (n : Nat) : Tidy 1 n (term n) := by
  cases n with
  | zero => exact nothing_tidy 1
  | succ n => exact termWith_tidy (expression_tidy n) n

theorem factor_tidy (n : Nat) : Tidy 1 n (factor n) := by
  cases n with
  | zero => exact nothing_tidy 1
  | succ n => exact factorWith_tidy (expression_tidy n)

theorem condition_tidy (n : Nat) : Tidy 1 n (condition n) := by
  intro s orderly room
  have room' := Nat.le_succ_of_le room
  apply (expression_tidy n).firstTree orderly room
  intro s1 left under
  apply (comparator_tidy n).expectTree under room' rfl
  intro s2 op under
  apply (expression_tidy n).expectTree under room' rfl
  intro s3 right under
  exact under.composed rfl rfl

theorem skipLineEnds_ok (n : Nat) (s : State) :
    ∃ feed dropped, skipLineEnds n s = .ok () { s with feed } ∧
      (∀ x ∈ dropped, x.token.kind = .endOfLine) ∧ s.feed.ahead = dropped ++ feed.ahead := by
  induction n generalizing s with
  | zero => exact ⟨s.feed, [], rfl, by simp, rfl⟩
  | succ n ih =>
    rw [skipLineEnds]
    rcases accept_cases ⟨.endOfLine, none⟩ s with
      ⟨feed, done, same, -⟩ | ⟨x, feed, done, wanted, tokens⟩
    · rw [bind_of_ok done]
      exact ⟨feed, [], rfl, by simp, same.symm⟩
    · obtain ⟨after, dropped, more, ends, tokens'⟩ := ih { s with feed }
      have kind := congrArg Token.kind (Wanted.eq_of_accepts_kind wanted)
      rw [bind_of_ok done]
      refine ⟨after, x :: dropped, more, ?_, ?_⟩
      · exact List.forall_mem_cons.mpr ⟨kind, ends⟩
      · rw [tokens, List.cons_append, ← tokens']

/-- A line end leaves the stack and the forest alone. -/
theorem lineEnd_cases (n : Nat) (s : State) :
    (∃ s', lineEnd n s = .ok false s' ∧ Idle s s') ∨
      ∃ feed dropped, lineEnd n s = .ok true { s with feed } ∧ dropped ≠ [] ∧
        (∀ x ∈ dropped, x.token.kind = .endOfLine) ∧ s.feed.ahead = dropped ++ feed.ahead := by
  rw [lineEnd]
  rcases accept_cases ⟨.endOfLine, none⟩ s with
    ⟨feed, done, same, peeked⟩ | ⟨x, feed, done, wanted, tokens⟩
  · rw [bind_of_ok done]
    exact .inl ⟨_, rfl, rfl, rfl, same, peeked⟩
  · obtain ⟨after, dropped, more, ends, tokens'⟩ := skipLineEnds_ok n { s with feed }
    have kind := congrArg Token.kind (Wanted.eq_of_accepts_kind wanted)
    rw [bind_of_ok done]
    refine .inr ⟨after, x :: dropped, bind_of_ok more, by simp, ?_, ?_⟩
    · exact List.forall_mem_cons.mpr ⟨kind, ends⟩
    · rw [tokens, List.cons_append, ← tokens']

theorem lineEnd_tidy (n bound : Nat) : Tidy 0 bound (lineEnd n) := by
  intro s orderly _
  rcases lineEnd_cases n s with ⟨s', done, idle⟩ | ⟨feed, dropped, done, some_token, -, tokens⟩
  · rw [done]
    exact .passed idle
  · rw [done]
    exact .matched rfl (.tokensOnly orderly some_token tokens)

theorem move_tidy (n : Nat) : Tidy 1 n (move n) := by
  have heads : Tidy 1 n
      (firstOf [keyword "forward", keyword "right", keyword "left", keyword "face"]) :=
    firstOf_leaves [⟨.keyword, some "forward"⟩, ⟨.keyword, some "right"⟩,
      ⟨.keyword, some "left"⟩, ⟨.keyword, some "face"⟩] n (by simp)
  intro s orderly room
  have room' := Nat.le_succ_of_le room
  apply heads.firstTree orderly room
  intro s1 h under
  apply (expression_tidy n).expectTree under room' rfl
  intro s2 e under
  apply (lineEnd_tidy n n).expectNone under room' rfl
  intro s3 under
  exact under.composed rfl rfl

theorem color_tidy (n : Nat) : Tidy 1 n (color n) := by
  have names : Tidy 1 n (firstOf (Palette.all.map (keyword ·.name))) := by
    have leaves := firstOf_leaves
      (Palette.all.map fun c => ⟨.keyword, some c.name⟩) n (by decide)
    rwa [List.map_map] at leaves
  apply names.orElse
  intro s orderly room
  have room' := Nat.le_succ_of_le room
  apply (leaf_tidy _ n).firstTree orderly room
  intro s1 h under
  apply (expression_tidy n).expectTree under room' rfl
  intro s2 red under
  apply (expression_tidy n).expectTree under room' rfl
  intro s3 green under
  apply (expression_tidy n).expectTree under room' rfl
  intro s4 blue under
  exact under.composed rfl rfl

theorem bare_tidy (word : String) (n : Nat) : Tidy 1 n (bare word n) := by
  intro s orderly room
  apply (leaf_tidy _ n).firstTree orderly room
  intro s1 h under
  apply (lineEnd_tidy n n).expectNone under (Nat.le_succ_of_le room) rfl
  intro s2 under
  exact .matched rfl under

theorem jump_tidy (n : Nat) : Tidy 1 n (jump n) := by
  intro s orderly room
  have room' := Nat.le_succ_of_le room
  apply (leaf_tidy _ n).firstTree orderly room
  intro s1 h under
  apply (expression_tidy n).expectTree under room' rfl
  intro s2 x under
  apply (expression_tidy n).expectTree under room' rfl
  intro s3 y under
  apply (lineEnd_tidy n n).expectNone under room' rfl
  intro s4 under
  exact under.composed rfl rfl

theorem assign_tidy (n : Nat) : Tidy 1 n (assign n) := by
  intro s orderly room
  have room' := Nat.le_succ_of_le room
  apply (leaf_tidy _ n).firstTree orderly room
  intro s1 h under
  apply (leaf_tidy _ n).expectTree under room' rfl
  intro s2 name under
  apply (expression_tidy n).expectTree under room' rfl
  intro s3 e under
  apply (lineEnd_tidy n n).expectNone under room' rfl
  intro s4 under
  exact under.composed rfl rfl

theorem call_tidy (n : Nat) : Tidy 1 n (call n) := by
  intro s orderly room
  have room' := Nat.le_succ_of_le room
  apply (leaf_tidy _ n).firstTree orderly room
  intro s1 h under
  apply (leaf_tidy _ n).expectTree under room' rfl
  intro s2 name under
  apply (expression_tidy n).gather room' under
  intro s3 arguments under
  apply under.group arguments .list
  intro s4 list under
  apply under.push
  intro s5 under
  apply (lineEnd_tidy n n).expectNone under room' rfl
  intro s6 under
  exact under.composed rfl rfl

theorem blockOf_tidy {command : Rule Bool} {n : Nat} (tidy : Tidy 1 n command) :
    Tidy 1 n (blockOf command n) := by
  intro s orderly room
  have room' := Nat.le_succ_of_le room
  apply (accept_tidy _ n).firstNone orderly room
  intro s1 under
  apply (lineEnd_tidy n n).expectNone under room' rfl
  intro s2 under
  apply tidy.gather room' under
  intro s3 commands under
  apply under.group commands .block
  intro s4 block under
  apply under.push
  intro s5 under
  apply (accept_tidy _ n).expectNone under room' rfl
  intro s6 under
  apply (lineEnd_tidy n n).expectNone under room' rfl
  intro s7 under
  exact .matched rfl under

section Blocks

variable {block : Rule Bool} {n m : Nat}

theorem timesWith_tidy (tidy : Tidy 1 m block) (fits : n ≤ m + 1) :
    Tidy 1 n (timesWith block n) := by
  intro s orderly room
  have inside := Nat.le_trans room fits
  apply (leaf_tidy _ n).firstTree orderly room
  intro s1 h under
  apply (expression_tidy n).expectTree under (Nat.le_succ_of_le room) rfl
  intro s2 e under
  apply tidy.expectTree under inside rfl
  intro s3 body under
  exact under.composed rfl rfl

theorem loopWith_tidy (tidy : Tidy 1 m block) (fits : n ≤ m + 1) :
    Tidy 1 n (loopWith block n) := by
  intro s orderly room
  have inside := Nat.le_trans room fits
  apply (leaf_tidy _ n).firstTree orderly room
  intro s1 h under
  apply (condition_tidy n).expectTree under (Nat.le_succ_of_le room) rfl
  intro s2 c under
  apply tidy.expectTree under inside rfl
  intro s3 body under
  exact under.composed rfl rfl

theorem branchWith_tidy (tidy : Tidy 1 m block) (fits : n ≤ m + 1) :
    Tidy 1 n (branchWith block n) := by
  intro s orderly room
  have inside := Nat.le_trans room fits
  apply (leaf_tidy _ n).firstTree orderly room
  intro s1 h under
  apply (condition_tidy n).expectTree under (Nat.le_succ_of_le room) rfl
  intro s2 c under
  apply tidy.expectTree under inside rfl
  intro s3 body under
  apply under.bind ((accept_tidy _ m).ends under inside)
  · intro s4 under _
    exact under.composed rfl rfl
  · intro s4 more count under
    obtain rfl := List.eq_nil_of_length_eq_zero count
    apply tidy.expectTree under inside rfl
    intro s5 otherwise under
    exact under.composed rfl rfl

theorem commandWith_tidy (tidy : Tidy 1 m block) (fits : n ≤ m + 1) :
    Tidy 1 n (commandWith block n) := by
  have worded : Tidy 1 n (firstOf [move n, bare "penup" n, bare "pendown" n, bare "home" n, jump n,
      assign n, timesWith block n, loopWith block n, branchWith block n, call n]) := by
    apply firstOf_tidy
    simp only [List.forall_mem_cons]
    exact ⟨move_tidy _, bare_tidy _ _, bare_tidy _ _, bare_tidy _ _, jump_tidy _, assign_tidy _,
      timesWith_tidy tidy fits, loopWith_tidy tidy fits, branchWith_tidy tidy fits, call_tidy _,
      by simp⟩
  apply worded.orElse
  intro s orderly room
  apply (color_tidy n).firstTree orderly room
  intro s1 h under
  apply (lineEnd_tidy n n).expectNone under (Nat.le_succ_of_le room) rfl
  intro s2 under
  exact .matched rfl under

end Blocks

theorem command_tidy (n : Nat) : Tidy 1 n (command n) := by
  induction n with
  | zero => exact nothing_tidy 1
  | succ n ih => exact commandWith_tidy (blockOf_tidy ih) (Nat.le_refl _)

theorem block_tidy (n : Nat) : Tidy 1 n (block n) :=
  blockOf_tidy (command_tidy n)

theorem procedure_tidy (n : Nat) : Tidy 1 n (procedure n) := by
  intro s orderly room
  have room' := Nat.le_succ_of_le room
  apply (leaf_tidy _ n).firstTree orderly room
  intro s1 h under
  apply (leaf_tidy _ n).expectTree under room' rfl
  intro s2 name under
  apply under.pop
  intro s3 under
  apply (leaf_tidy _ n).gather room' under
  intro s4 parameters under
  apply under.group parameters .list
  intro s5 list under
  apply (under.perm (List.Perm.swap ..)).group [name, list] .header
  intro s6 header under
  apply under.push
  intro s7 under
  apply (block_tidy n).expectTree under room' rfl
  intro s8 body under
  exact under.composed rfl rfl

theorem trimmedProgram_tidy (n : Nat) : Tidy 1 n (trimmedProgram n) := by
  intro s orderly room
  have room' := Nat.le_succ_of_le room
  apply (command_tidy n).firstTree orderly room
  intro s1 first under
  apply under.pop
  intro s2 under
  apply (command_tidy n).gather room' under
  intro s3 rest under
  apply (procedure_tidy n).gather room' under
  intro s4 procedures under
  apply (accept_tidy _ n).expectNone under room' rfl
  intro s5 under
  have inOrder : (procedures ++ (rest ++ [first])).Perm ((first :: rest) ++ procedures) :=
    List.perm_append_comm.trans ((List.perm_append_singleton _ _).append_right _)
  apply (under.perm inOrder).group (first :: rest) .block
  intro s6 block under
  apply (under.perm (List.perm_append_singleton _ _).symm).group procedures .list
  intro s7 list under
  apply (under.perm (List.Perm.swap ..)).group [block, list] .program
  intro s8 program under
  apply under.push
  intro s9 under
  exact .matched rfl under

end TurtleGraphics.Grammar
