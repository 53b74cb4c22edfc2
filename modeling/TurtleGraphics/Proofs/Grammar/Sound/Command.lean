import TurtleGraphics.Proofs.Grammar.Sound.Expression

/-!
What is read is there, for commands, procedures and scripts. The readers have to be given a bound
that is large enough for an expression to be read as far as it goes.
-/

namespace TurtleGraphics.Phrase

variable {α : Type}

/-- The reader goes on after the tokens of what it reads, and no expression in that is directly
followed by a sign, if there are no more tokens than the bound. -/
def Careful (bound : Nat) (tokens : α → List Token) (longest : α → Prop) (read : Reader α) : Prop :=
  ∀ ts a rest, ts.length ≤ bound → read ts = .matched a rest → ts = tokens a ++ rest ∧ longest a

theorem either_careful {tokens : α → List Token} {longest : α → Prop} {readers : List (Reader α)}
    {n : Nat} (each : ∀ r ∈ readers, Careful n tokens longest r) :
    Careful n tokens longest (either readers) := by
  intro ts a rest room h
  obtain ⟨r, member, read⟩ := either_eq_matched h
  exact each r member _ _ _ room read

theorem many_careful {tokens : α → List Token} {longest : α → Prop} {read : Reader α} {m : Nat}
    (careful : Careful m tokens longest read) (n : Nat) :
    Careful m (·.flatMap tokens) (∀ a ∈ ·, longest a) (many read n) := by
  induction n with
  | zero =>
    intro ts as rest _ h
    cases h
    exact ⟨rfl, by simp⟩
  | succ n ih =>
    intro ts as rest room h
    rw [many, Reading.andThen_eq_matched] at h
    rcases h with ⟨a, us, first, more⟩ | ⟨-, none⟩
    · obtain ⟨as, later, rfl⟩ := Reading.map_eq_matched.mp more
      obtain ⟨rfl, good⟩ := careful _ _ _ room first
      rw [List.length_append] at room
      obtain ⟨rfl, others⟩ := ih _ _ _ (by omega) later
      refine ⟨by simp, ?_⟩
      simpa using ⟨good, others⟩
    · cases none
      exact ⟨rfl, by simp⟩

theorem move_sound : Sound (fun m => [word m.text]) (either [takeWord "forward" Move.forward,
    takeWord "right" .right, takeWord "left" .left, takeWord "face" .face]) := by
  apply either_sound
  simp only [List.forall_mem_cons]
  exact ⟨word_sound rfl, word_sound rfl, word_sound rfl, word_sound rfl, by simp⟩

theorem name_sound : Sound (fun text => [naming text]) takeName :=
  kind_sound fun _ => rfl

theorem lineEnd_sound (n : Nat) : Sound LineEnd.tokens (LineEnd.read n) := by
  have ends : Sound (fun text => [endOfLine text]) takeEndOfLine := kind_sound fun _ => rfl
  intro ts l rest h
  simp only [LineEnd.read, Reading.andThen_eq_matched, reduceCtorEq, and_false, or_false,
    Reading.map_eq_matched] at h
  obtain ⟨first, ts1, start, more, read, rfl⟩ := h
  rw [ends _ _ _ start, many_sound ends n _ _ _ read, LineEnd.tokens, List.map_eq_flatMap]
  rfl

theorem closed_eq_matched {n : Nat} {fault : Grammar.Fault} {f : LineEnd → α} {ts rest : List Token}
    {a : α} (h : closed n fault f ts = .matched a rest) :
    ∃ close, a = f close ∧ ts = close.tokens ++ rest := by
  simp only [closed, Reading.andThen_eq_matched, reduceCtorEq, and_false, or_false,
    Reading.matched.injEq] at h
  obtain ⟨close, ts1, read, rfl, rfl⟩ := h
  exact ⟨close, rfl, lineEnd_sound n _ _ _ read⟩

/-- What stands before a line end is followed by it, whatever comes after. -/
theorem startsSigned_close (ts rest : List Token) (close : LineEnd) :
    startsSigned (ts ++ (close.tokens ++ rest)) = startsSigned (ts ++ close.tokens) := by
  cases ts <;> rfl

theorem startsSigned_tokens (e : Expression) (ts : List Token) :
    startsSigned (e.tokens ++ ts) = startsSigned e.tokens := by
  obtain ⟨sign, u, more, further⟩ := e
  cases sign with
  | some op => rfl
  | none => cases u <;> rfl

theorem move_careful (n : Nat) :
    Careful n Command.tokens Command.Longest (Command.readMove n) := by
  intro ts c rest room h
  simp only [Command.readMove, Reading.andThen_eq_matched, reduceCtorEq, and_false, or_false] at h
  obtain ⟨m, ts1, head, e, ts2, read, ended⟩ := h
  obtain ⟨close, rfl, rfl⟩ := closed_eq_matched ended
  rw [move_sound _ _ _ head, expression_sound n _ _ _ read]
  exact ⟨by simp [Command.tokens], e.longestBefore rfl⟩

theorem bare_careful (b : Bare) (n : Nat) :
    Careful n Command.tokens Command.Longest (Command.readBare b n) := by
  intro ts c rest room h
  simp only [Command.readBare, Reading.andThen_eq_matched, reduceCtorEq, and_false, or_false] at h
  obtain ⟨_, ts1, head, ended⟩ := h
  obtain ⟨close, rfl, rfl⟩ := closed_eq_matched ended
  rw [(takeWord_eq_matched head).1]
  exact ⟨by simp [Command.tokens], trivial⟩

theorem jump_careful (n : Nat) :
    Careful n Command.tokens Command.Longest (Command.readJump n) := by
  intro ts c rest room h
  simp only [Command.readJump, Reading.andThen_eq_matched, reduceCtorEq, and_false, or_false] at h
  obtain ⟨_, ts1, head, x, ts2, first, y, ts3, second, ended⟩ := h
  obtain ⟨close, rfl, rfl⟩ := closed_eq_matched ended
  obtain ⟨rfl, -⟩ := takeWord_eq_matched head
  have stops := expression_stops first (by simpa using Nat.le_of_succ_le room)
  rw [expression_sound n _ _ _ second, startsSigned_tokens] at stops
  rw [expression_sound n _ _ _ first, expression_sound n _ _ _ second]
  rw [← startsSigned_tokens y close.tokens] at stops
  exact ⟨by simp [Command.tokens], x.longestBefore stops, y.longestBefore rfl⟩

theorem assign_careful (n : Nat) :
    Careful n Command.tokens Command.Longest (Command.readAssign n) := by
  intro ts c rest room h
  simp only [Command.readAssign, Reading.andThen_eq_matched, reduceCtorEq, and_false, or_false]
    at h
  obtain ⟨_, ts1, head, name, ts2, target, e, ts3, read, ended⟩ := h
  obtain ⟨close, rfl, rfl⟩ := closed_eq_matched ended
  rw [(takeWord_eq_matched head).1, name_sound _ _ _ target, expression_sound n _ _ _ read]
  exact ⟨by simp [Command.tokens], e.longestBefore rfl⟩

/-- Arguments that stop before some tokens stop before a line end too. -/
theorem startsSigned_arguments {es : List Expression} {ts : List Token}
    (stops : startsSigned (es.flatMap Expression.tokens ++ ts) = false) (close : LineEnd) :
    startsSigned (es.flatMap Expression.tokens ++ close.tokens) = false := by
  cases es with
  | nil => rfl
  | cons e es =>
    rw [List.flatMap_cons, List.append_assoc, startsSigned_tokens] at stops ⊢
    exact stops

theorem arguments_longest {n k : Nat} {ts rest : List Token} {es : List Expression}
    (h : many (Expression.read n) k ts = .matched es rest) (room : ts.length ≤ n)
    (close : LineEnd) : LongestAllBefore close.tokens es := by
  induction k generalizing ts es with
  | zero =>
    cases h
    trivial
  | succ k ih =>
    rw [many, Reading.andThen_eq_matched] at h
    rcases h with ⟨e, us, first, more⟩ | ⟨-, none⟩
    · obtain ⟨es, later, rfl⟩ := Reading.map_eq_matched.mp more
      have stops := expression_stops first room
      rw [many_sound (expression_sound n) k _ _ _ later] at stops
      rw [expression_sound n _ _ _ first, List.length_append] at room
      exact ⟨e.longestBefore (startsSigned_arguments stops close), ih later (by omega)⟩
    · cases none
      trivial

theorem call_careful (n : Nat) :
    Careful n Command.tokens Command.Longest (Command.readCall n) := by
  intro ts c rest room h
  simp only [Command.readCall, Reading.andThen_eq_matched, reduceCtorEq, and_false, or_false] at h
  obtain ⟨_, ts1, head, name, ts2, target, arguments, ts3, read, ended⟩ := h
  obtain ⟨close, rfl, rfl⟩ := closed_eq_matched ended
  rw [(takeWord_eq_matched head).1, name_sound _ _ _ target] at room ⊢
  simp only [List.length_cons, List.length_append] at room
  have longest := arguments_longest read (by omega) close
  rw [many_sound (expression_sound n) n _ _ _ read]
  exact ⟨by simp [Command.tokens], longest⟩

theorem Condition.longestBefore {rest : List Token} (stops : startsSigned rest = false)
    (c : Condition) : c.LongestBefore rest := by
  obtain ⟨left, comparator, right⟩ := c
  refine ⟨left.longestBefore ?_, right.longestBefore stops⟩
  cases comparator <;> rfl

theorem condition_sound (n : Nat) : Sound Condition.tokens (Condition.read n) := by
  intro ts c rest h
  simp only [Condition.read, Reading.andThen_eq_matched, reduceCtorEq, and_false, or_false,
    Reading.matched.injEq] at h
  obtain ⟨left, ts1, first, op, ts2, compared, right, ts3, second, rfl, rfl⟩ := h
  rw [expression_sound n _ _ _ first, comparator_sound _ _ _ compared,
    expression_sound n _ _ _ second]
  simp [Condition.tokens]

theorem shade_eq_matched {n : Nat} {ts rest : List Token} {shade : Shade}
    (h : Shade.read n ts = .matched shade rest) (room : ts.length ≤ n) (close : LineEnd) :
    ts = shade.tokens ++ rest ∧ shade.LongestBefore close.tokens := by
  obtain ⟨r, member, read⟩ := either_eq_matched h
  simp only [List.mem_cons, List.not_mem_nil, or_false] at member
  rcases member with rfl | rfl
  · obtain ⟨r, member, named⟩ := either_eq_matched read
    obtain ⟨c, -, rfl⟩ := List.mem_map.mp member
    obtain ⟨rfl, rfl⟩ := takeWord_eq_matched named
    exact ⟨rfl, trivial⟩
  · simp only [Shade.readMixed, Reading.andThen_eq_matched, reduceCtorEq, and_false, or_false,
      Reading.matched.injEq] at read
    obtain ⟨_, ts1, head, red, ts2, first, green, ts3, second, blue, ts4, third, rfl, rfl⟩ := read
    obtain ⟨rfl, -⟩ := takeWord_eq_matched head
    simp only [List.length_cons] at room
    have sound := expression_sound n
    have stops := expression_stops first (by omega)
    rw [sound _ _ _ first, List.length_append] at room
    have stops' := expression_stops second (by omega)
    rw [sound _ _ _ second, startsSigned_tokens, ← startsSigned_tokens green blue.tokens] at stops
    rw [sound _ _ _ third, startsSigned_tokens] at stops'
    rw [sound _ _ _ first, sound _ _ _ second, sound _ _ _ third]
    exact ⟨by simp [Shade.tokens], red.longestBefore stops, green.longestBefore stops',
      blue.longestBefore rfl⟩

theorem color_careful (n : Nat) :
    Careful n Command.tokens Command.Longest (Command.readColor n) := by
  intro ts c rest room h
  simp only [Command.readColor, Reading.andThen_eq_matched, reduceCtorEq, and_false, or_false] at h
  obtain ⟨shade, ts1, read, ended⟩ := h
  obtain ⟨close, rfl, rfl⟩ := closed_eq_matched ended
  obtain ⟨rfl, longest⟩ := shade_eq_matched read room close
  exact ⟨by simp [Command.tokens], longest⟩

section Blocks

variable {block : Reader Block} {n : Nat}

theorem block_stops (b : Block) : startsSigned b.tokens = false := by
  cases b
  rfl

theorem times_careful (careful : Careful n Block.tokens Block.Longest block) :
    Careful (n + 1) Command.tokens Command.Longest (Command.readTimes block (n + 1)) := by
  intro ts c rest room h
  simp only [Command.readTimes, Reading.andThen_eq_matched, reduceCtorEq, and_false, or_false,
    Reading.matched.injEq] at h
  obtain ⟨_, ts1, head, e, ts2, read, body, ts3, inner, rfl, rfl⟩ := h
  rw [(takeWord_eq_matched head).1, expression_sound _ _ _ _ read] at room ⊢
  simp only [List.length_cons, List.length_append] at room
  obtain ⟨rfl, longest⟩ := careful _ _ _ (by omega) inner
  exact ⟨by simp [Command.tokens], e.longestBefore (block_stops body), longest⟩

theorem loop_careful (careful : Careful n Block.tokens Block.Longest block) :
    Careful (n + 1) Command.tokens Command.Longest (Command.readLoop block (n + 1)) := by
  intro ts c rest room h
  simp only [Command.readLoop, Reading.andThen_eq_matched, reduceCtorEq, and_false, or_false,
    Reading.matched.injEq] at h
  obtain ⟨_, ts1, head, c, ts2, read, body, ts3, inner, rfl, rfl⟩ := h
  rw [(takeWord_eq_matched head).1, condition_sound _ _ _ _ read] at room ⊢
  simp only [List.length_cons, List.length_append] at room
  obtain ⟨rfl, longest⟩ := careful _ _ _ (by omega) inner
  exact ⟨by simp [Command.tokens], c.longestBefore (block_stops body), longest⟩

theorem branch_careful (careful : Careful n Block.tokens Block.Longest block) :
    Careful (n + 1) Command.tokens Command.Longest (Command.readBranch block (n + 1)) := by
  intro ts c rest room h
  simp only [Command.readBranch, Reading.andThen_eq_matched, reduceCtorEq, and_false, or_false,
    Reading.matched.injEq] at h
  obtain ⟨_, ts1, head, c, ts2, read, body, ts3, inner, more⟩ := h
  rw [(takeWord_eq_matched head).1, condition_sound _ _ _ _ read] at room ⊢
  simp only [List.length_cons, List.length_append] at room
  obtain ⟨rfl, longest⟩ := careful _ _ _ (by omega) inner
  have stops := c.longestBefore (block_stops body)
  rcases more with ⟨_, ts4, word, otherwise, ts5, further, rfl, rfl⟩ | ⟨-, rfl, rfl⟩
  · rw [(takeWord_eq_matched word).1] at room ⊢
    simp only [List.length_cons, List.length_append] at room
    obtain ⟨rfl, others⟩ := careful _ _ _ (by omega) further
    exact ⟨by simp [Command.tokens], stops, longest, others⟩
  · exact ⟨by simp [Command.tokens], stops, longest⟩

theorem commandWith_careful (careful : Careful n Block.tokens Block.Longest block) :
    Careful (n + 1) Command.tokens Command.Longest (Command.readWith block (n + 1)) := by
  apply either_careful
  simp only [List.forall_mem_cons]
  refine ⟨either_careful ?_, color_careful _, by simp⟩
  simp only [List.forall_mem_cons]
  exact ⟨move_careful _, bare_careful _ _, bare_careful _ _, bare_careful _ _, jump_careful _,
    assign_careful _, times_careful careful, loop_careful careful, branch_careful careful,
    call_careful _, by simp⟩

theorem blockOf_careful {command : Reader Command}
    (careful : Careful n Command.tokens Command.Longest command) :
    Careful n Block.tokens Block.Longest (Block.readOf command n) := by
  intro ts b rest room h
  simp only [Block.readOf, Block.readClose, Reading.andThen_eq_matched, reduceCtorEq, and_false,
    or_false] at h
  obtain ⟨_, ts1, opened, opening, ts2, first, commands, ts3, inner, _, ts4, closes, ended⟩ := h
  obtain ⟨close, rfl, rfl⟩ := closed_eq_matched ended
  obtain ⟨rfl, -⟩ := takeMark_eq_matched closes
  rw [(takeMark_eq_matched opened).1, lineEnd_sound n _ _ _ first] at room ⊢
  simp only [List.length_cons, List.length_append] at room
  obtain ⟨rfl, longest⟩ := many_careful careful n _ _ _ (by omega) inner
  exact ⟨by simp [Block.tokens], (Commands.longest_ofList commands).mpr longest⟩

end Blocks

theorem command_careful (n : Nat) :
    Careful n Command.tokens Command.Longest (Command.read n) := by
  induction n with
  | zero =>
    intro ts c rest room h
    cases h
  | succ n ih => exact commandWith_careful (blockOf_careful ih)

theorem procedure_careful (n : Nat) :
    Careful n Procedure.tokens (·.body.Longest) (Procedure.read n) := by
  intro ts p rest room h
  simp only [Procedure.read, Procedure.readBody, Reading.andThen_eq_matched, reduceCtorEq,
    and_false, or_false, Reading.matched.injEq] at h
  obtain ⟨_, ts1, head, name, ts2, named, parameters, ts3, listed, body, ts4, read, rfl, rfl⟩ := h
  rw [(takeWord_eq_matched head).1, name_sound _ _ _ named, many_sound name_sound n _ _ _ listed]
    at room ⊢
  simp only [List.length_cons, List.length_append] at room
  obtain ⟨rfl, longest⟩ := blockOf_careful (command_careful n) _ _ _ (by omega) read
  exact ⟨by simp [Procedure.tokens, List.map_eq_flatMap], longest⟩

/-- A script was read up to a token for the end of input. -/
theorem script_careful {n : Nat} {ts rest : List Token} {s : Script}
    (h : Script.read n ts = .matched s rest) (room : ts.length ≤ n) :
    s.Longest ∧ ∃ before t, t.kind = .endOfInput ∧ ts = before ++ t :: rest ∧
      s.tokens = before ++ [Token.theEnd] := by
  have trimmed {blank : List String} {us : List Token} (short : us.length ≤ n)
      (h : Script.readTrimmed n blank us = .matched s rest) :
      s.Longest ∧ ∃ before t, t.kind = .endOfInput ∧ us = before ++ t :: rest ∧
        s.tokens = blank.map endOfLine ++ (before ++ [Token.theEnd]) := by
    simp only [Script.readTrimmed, Reading.andThen_eq_matched, reduceCtorEq, and_false, or_false,
      Reading.matched.injEq] at h
    obtain ⟨first, ts1, head, more, ts2, tail, procedures, ts3, defined, _, ts4, last, rfl, rfl⟩ :=
      h
    obtain ⟨rfl, good⟩ := command_careful n _ _ _ short head
    rw [List.length_append] at short
    obtain ⟨rfl, goods⟩ := many_careful (command_careful n) n _ _ _ (by omega) tail
    rw [List.length_append] at short
    obtain ⟨rfl, bodies⟩ := many_careful (procedure_careful n) n _ _ _ (by omega) defined
    obtain ⟨t, rfl, wanted, -⟩ := take_eq_matched last
    have kind : t.kind = .endOfInput := by
      rw [Grammar.Wanted.eq_of_accepts_kind wanted]
    exact ⟨⟨good, goods, bodies⟩, first.tokens ++ (more.flatMap Command.tokens ++
      procedures.flatMap Procedure.tokens), t, kind, by simp, by simp [Script.tokens]⟩
  rw [Script.read, Reading.andThen_eq_matched] at h
  rcases h with ⟨l, us, blank, h⟩ | ⟨-, h⟩
  · obtain rfl := lineEnd_sound n _ _ _ blank
    rw [List.length_append] at room
    obtain ⟨longest, before, t, kind, rfl, same⟩ := trimmed (by omega) h
    exact ⟨longest, l.tokens ++ before, t, kind, by simp, by rw [same]; simp [LineEnd.tokens]⟩
  · exact trimmed room h

end TurtleGraphics.Phrase
