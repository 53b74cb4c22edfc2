import TurtleGraphics.Proofs.Grammar.Viable.Expression

/-!
What has been read when a fault is found can be completed, for commands, blocks and procedures. The
parts that are made up do not start with a sign, so the expressions before them end where they did.
-/

namespace TurtleGraphics.Phrase

open Grammar (Fault)

variable {α : Type} {ts rest : List Token} {fault missing : Fault}

theorem lineEnd_silent (n : Nat) : Silent (LineEnd.read n) := by
  have ends : Silent takeEndOfLine := take_silent _ _
  intro ts fault rest h
  obtain ⟨first, us, -, later⟩ := ends.started h
  exact many_silent ends n _ _ _ (Reading.map_eq_failed later)

/-- The line end is missing. -/
theorem closed_eq_failed {n : Nat} {f : LineEnd → α}
    (h : closed n missing f ts = .failed fault rest) : rest = ts := by
  rcases (lineEnd_silent n).expected h with same | ⟨close, us, -, none⟩
  · exact same
  · cases none

theorem move_viable (n : Nat) :
    ViableUpTo n Command.tokens Command.Longest (Command.readMove n) := by
  have silent : Silent (either [takeWord "forward" Move.forward, takeWord "right" .right,
      takeWord "left" .left, takeWord "face" .face]) := by
    apply either_silent
    simp only [List.forall_mem_cons]
    exact ⟨take_silent _ _, take_silent _ _, take_silent _ _, take_silent _ _, by simp⟩
  intro ts fault rest room h
  obtain ⟨m, ts1, head, h⟩ := silent.started h
  rw [move_sound _ _ _ head]
  rcases (expression_viable n).expected (a := .simple) rfl h with ⟨e, cut⟩ | ⟨e, ts2, read, h⟩
  · exact ⟨.move m e .simple, e.longestBefore rfl, (cut.append rfl).cons _⟩
  rw [expression_sound n _ _ _ read]
  obtain rfl := closed_eq_failed h
  exact ⟨.move m e .simple, e.longestBefore rfl, ((Cut.here rfl).after e.tokens).cons _⟩

theorem bare_viable (b : Bare) (n : Nat) :
    ViableUpTo n Command.tokens Command.Longest (Command.readBare b n) := by
  intro ts fault rest room h
  obtain ⟨_, ts1, head, h⟩ := (take_silent _ _).started h
  rw [(takeWord_eq_matched head).1]
  obtain rfl := closed_eq_failed h
  exact ⟨.bare b .simple, trivial, (Cut.here rfl).cons _⟩

theorem jump_viable (n : Nat) :
    ViableUpTo n Command.tokens Command.Longest (Command.readJump n) := by
  intro ts fault rest room h
  obtain ⟨_, ts1, head, h⟩ := (take_silent _ _).started h
  rw [(takeWord_eq_matched head).1] at room ⊢
  rw [List.length_cons] at room
  rcases expression_expected h (by omega) with ⟨x, cut, -⟩ | ⟨x, ts2, first, h⟩
  · exact ⟨.jump x .simple .simple, ⟨x.longestBefore rfl, Expression.longestBefore rfl _⟩,
      (cut.append rfl).cons _⟩
  have stops := expression_stops first (by omega)
  rw [expression_sound n _ _ _ first] at room ⊢
  rw [List.length_append] at room
  rcases expression_expected h (by omega) with ⟨y, cut, unsigned⟩ | ⟨y, ts3, second, h⟩
  · have follows : startsSigned (y.tokens ++ LineEnd.simple.tokens) = false := by
      rw [startsSigned_tokens]
      exact unsigned stops
    exact ⟨.jump x y .simple, ⟨x.longestBefore follows, y.longestBefore rfl⟩,
      ((cut.append rfl).after x.tokens).cons _⟩
  rw [expression_sound n _ _ _ second] at stops ⊢
  have follows : startsSigned (y.tokens ++ LineEnd.simple.tokens) = false := by
    rw [startsSigned_tokens] at stops ⊢
    exact stops
  obtain rfl := closed_eq_failed h
  exact ⟨.jump x y .simple, ⟨x.longestBefore follows, y.longestBefore rfl⟩,
    (((Cut.here rfl).after y.tokens).after x.tokens).cons _⟩

theorem assign_viable (n : Nat) :
    ViableUpTo n Command.tokens Command.Longest (Command.readAssign n) := by
  intro ts fault rest room h
  obtain ⟨_, ts1, head, h⟩ := (take_silent _ _).started h
  rw [(takeWord_eq_matched head).1]
  rcases (take_silent _ _).expected h with rfl | ⟨name, ts2, target, h⟩
  · exact ⟨.assign "x" .simple .simple, Expression.longestBefore rfl _, (Cut.here rfl).cons _⟩
  rw [name_sound _ _ _ target]
  rcases (expression_viable n).expected (a := .simple) rfl h with ⟨e, cut⟩ | ⟨e, ts3, read, h⟩
  · exact ⟨.assign name e .simple, e.longestBefore rfl, ((cut.append rfl).cons _).cons _⟩
  rw [expression_sound n _ _ _ read]
  obtain rfl := closed_eq_failed h
  exact ⟨.assign name e .simple, e.longestBefore rfl,
    (((Cut.here rfl).after e.tokens).cons _).cons _⟩

/-- The arguments up to one that is faulty. -/
theorem arguments_viable {n k : Nat} (h : many (Expression.read n) k ts = .failed fault rest)
    (room : ts.length ≤ n) :
    ∃ es : List Expression, LongestAllBefore LineEnd.simple.tokens es ∧
      Cut ts rest (es.flatMap Expression.tokens) ∧
        (startsSigned ts = false →
          startsSigned (es.flatMap Expression.tokens ++ LineEnd.simple.tokens) = false) := by
  induction k generalizing ts with
  | zero => cases h
  | succ k ih =>
    rcases Reading.andThen_eq_failed h with inside | ⟨-, none⟩ | ⟨e, us, first, later⟩
    · obtain ⟨e, cut, unsigned⟩ := expression_broken inside room
      refine ⟨[e], ⟨e.longestBefore rfl, trivial⟩, by simpa using cut, ?_⟩
      intro stops
      rw [List.flatMap_cons, List.append_assoc, startsSigned_tokens]
      exact unsigned stops
    · cases none
    · have stops := expression_stops first room
      rw [expression_sound n _ _ _ first] at room ⊢
      rw [List.length_append] at room
      obtain ⟨es, longest, cut, unsigned⟩ := ih (Reading.map_eq_failed later) (by omega)
      refine ⟨e :: es, ⟨e.longestBefore (unsigned stops), longest⟩, cut.after e.tokens, ?_⟩
      intro start
      rw [startsSigned_tokens] at start
      rw [List.flatMap_cons, List.append_assoc, startsSigned_tokens]
      exact start

theorem call_viable (n : Nat) :
    ViableUpTo n Command.tokens Command.Longest (Command.readCall n) := by
  intro ts fault rest room h
  obtain ⟨_, ts1, head, h⟩ := (take_silent _ _).started h
  rw [(takeWord_eq_matched head).1] at room ⊢
  rcases (take_silent _ _).expected h with rfl | ⟨name, ts2, target, h⟩
  · exact ⟨.call "x" [] .simple, trivial, (Cut.here rfl).cons _⟩
  rw [name_sound _ _ _ target] at room ⊢
  simp only [List.length_cons, List.length_append, List.length_nil] at room
  rcases started h with inside | ⟨arguments, ts3, read, h⟩
  · obtain ⟨es, longest, cut, -⟩ := arguments_viable inside (by omega)
    exact ⟨.call name es .simple, longest, ((cut.append rfl).cons _).cons _⟩
  have longest := arguments_longest read (by omega) .simple
  have split : ts2 = arguments.flatMap Expression.tokens ++ ts3 :=
    many_sound (expression_sound n) n _ _ _ read
  rw [split]
  obtain rfl := closed_eq_failed h
  exact ⟨.call name arguments .simple, longest,
    (((Cut.here rfl).after (arguments.flatMap Expression.tokens)).cons _).cons _⟩

theorem mixed_viable (n : Nat) :
    ViableUpTo n Shade.tokens (Shade.LongestBefore LineEnd.simple.tokens) (Shade.readMixed n) := by
  intro ts fault rest room h
  obtain ⟨_, ts1, head, h⟩ := (take_silent _ _).started h
  rw [(takeWord_eq_matched head).1] at room ⊢
  rw [List.length_cons] at room
  rcases expression_expected h (by omega) with ⟨red, cut, -⟩ | ⟨red, ts2, first, h⟩
  · exact ⟨.mixed red .simple .simple, ⟨red.longestBefore rfl, Expression.longestBefore rfl _,
      Expression.longestBefore rfl _⟩, (cut.append rfl).cons _⟩
  have stops := expression_stops first (by omega)
  rw [expression_sound n _ _ _ first] at room ⊢
  rw [List.length_append] at room
  rcases expression_expected h (by omega) with ⟨green, cut, unsigned⟩ | ⟨green, ts3, second, h⟩
  · have follows : startsSigned (green.tokens ++ Expression.simple.tokens) = false := by
      rw [startsSigned_tokens]
      exact unsigned stops
    exact ⟨.mixed red green .simple, ⟨red.longestBefore follows, green.longestBefore rfl,
      Expression.longestBefore rfl _⟩, ((cut.append rfl).after red.tokens).cons _⟩
  have stops' := expression_stops second (by omega)
  rw [expression_sound n _ _ _ second] at room stops ⊢
  rw [List.length_append] at room
  rcases expression_expected h (by omega) with ⟨blue, cut, unsigned⟩ | ⟨blue, ts4, _, none⟩
  · have follows : startsSigned (green.tokens ++ blue.tokens) = false := by
      rw [startsSigned_tokens] at stops ⊢
      exact stops
    exact ⟨.mixed red green blue, ⟨red.longestBefore follows, green.longestBefore (unsigned stops'),
      blue.longestBefore rfl⟩, ((cut.after green.tokens).after red.tokens).cons _⟩
  · cases none

theorem shade_viable (n : Nat) :
    ViableUpTo n Shade.tokens (Shade.LongestBefore LineEnd.simple.tokens) (Shade.read n) := by
  intro ts fault rest room h
  obtain ⟨r, member, h⟩ := either_eq_failed h
  simp only [List.mem_cons, List.not_mem_nil, or_false] at member
  rcases member with rfl | rfl
  · obtain ⟨r, member, h⟩ := either_eq_failed h
    obtain ⟨c, -, rfl⟩ := List.mem_map.mp member
    exact absurd h (take_silent _ _ _ _ _)
  · exact mixed_viable n _ _ _ room h

theorem color_viable (n : Nat) :
    ViableUpTo n Command.tokens Command.Longest (Command.readColor n) := by
  intro ts fault rest room h
  rcases started h with inside | ⟨shade, ts1, read, h⟩
  · obtain ⟨shade, longest, cut⟩ := shade_viable n _ _ _ room inside
    exact ⟨.color shade .simple, longest, cut.append rfl⟩
  obtain ⟨split, longest⟩ := shade_eq_matched read room .simple
  obtain rfl := closed_eq_failed h
  rw [split]
  exact ⟨.color shade .simple, longest, (Cut.here rfl).after shade.tokens⟩

section Blocks

variable {block : Reader Block} {n : Nat}

theorem times_viable (viable : ViableUpTo n Block.tokens Block.Longest block) :
    ViableUpTo (n + 1) Command.tokens Command.Longest (Command.readTimes block (n + 1)) := by
  intro ts fault rest room h
  obtain ⟨_, ts1, head, h⟩ := (take_silent _ _).started h
  rw [(takeWord_eq_matched head).1] at room ⊢
  rw [List.length_cons] at room
  rcases (expression_viable (n + 1)).expected (a := .simple) rfl h with
    ⟨e, cut⟩ | ⟨e, ts2, read, h⟩
  · exact ⟨.times e .simple, ⟨e.longestBefore rfl, trivial⟩, (cut.append rfl).cons _⟩
  rw [expression_sound _ _ _ _ read] at room ⊢
  rw [List.length_append] at room
  rcases viable.expected (by omega) (a := .simple) trivial rfl h with
    ⟨body, longest, cut⟩ | ⟨body, ts3, _, none⟩
  · exact ⟨.times e body, ⟨e.longestBefore (block_stops body), longest⟩,
      (cut.after e.tokens).cons _⟩
  · cases none

theorem loop_viable (viable : ViableUpTo n Block.tokens Block.Longest block) :
    ViableUpTo (n + 1) Command.tokens Command.Longest (Command.readLoop block (n + 1)) := by
  intro ts fault rest room h
  obtain ⟨_, ts1, head, h⟩ := (take_silent _ _).started h
  rw [(takeWord_eq_matched head).1] at room ⊢
  rw [List.length_cons] at room
  rcases (condition_viable (n + 1)).expected (a := .simple) rfl h with
    ⟨c, cut⟩ | ⟨c, ts2, read, h⟩
  · exact ⟨.loop c .simple, ⟨c.longestBefore rfl, trivial⟩, (cut.append rfl).cons _⟩
  rw [condition_sound _ _ _ _ read] at room ⊢
  rw [List.length_append] at room
  rcases viable.expected (by omega) (a := .simple) trivial rfl h with
    ⟨body, longest, cut⟩ | ⟨body, ts3, _, none⟩
  · exact ⟨.loop c body, ⟨c.longestBefore (block_stops body), longest⟩,
      (cut.after c.tokens).cons _⟩
  · cases none

theorem branch_viable (viable : ViableUpTo n Block.tokens Block.Longest block)
    (careful : Careful n Block.tokens Block.Longest block) :
    ViableUpTo (n + 1) Command.tokens Command.Longest (Command.readBranch block (n + 1)) := by
  intro ts fault rest room h
  obtain ⟨_, ts1, head, h⟩ := (take_silent _ _).started h
  rw [(takeWord_eq_matched head).1] at room ⊢
  rw [List.length_cons] at room
  rcases (condition_viable (n + 1)).expected (a := .simple) rfl h with
    ⟨c, cut⟩ | ⟨c, ts2, read, h⟩
  · exact ⟨.branch c .simple, ⟨c.longestBefore rfl, trivial⟩, (cut.append rfl).cons _⟩
  rw [condition_sound _ _ _ _ read] at room ⊢
  rw [List.length_append] at room
  rcases viable.expected (by omega) (a := .simple) trivial rfl h with
    ⟨body, longest, cut⟩ | ⟨body, ts3, inner, h⟩
  · exact ⟨.branch c body, ⟨c.longestBefore (block_stops body), longest⟩,
      (cut.after c.tokens).cons _⟩
  have stops := c.longestBefore (block_stops body)
  obtain ⟨split, longest⟩ := careful _ _ _ (by omega) inner
  rw [split, List.length_append] at room
  rw [split]
  rcases Reading.andThen_eq_failed h with inside | ⟨-, none⟩ | ⟨_, ts4, otherwise, h⟩
  · exact absurd inside (take_silent _ _ _ _ _)
  · cases none
  rw [(takeWord_eq_matched otherwise).1] at room ⊢
  rw [List.length_cons] at room
  rcases viable.expected (by omega) (a := .simple) trivial rfl h with
    ⟨other, further, cut⟩ | ⟨other, ts5, _, none⟩
  · exact ⟨.branchElse c body other, ⟨stops, longest, further⟩,
      (((cut.cons _).after body.tokens).after c.tokens).cons _⟩
  · cases none

theorem commandWith_viable (viable : ViableUpTo n Block.tokens Block.Longest block)
    (careful : Careful n Block.tokens Block.Longest block) :
    ViableUpTo (n + 1) Command.tokens Command.Longest (Command.readWith block (n + 1)) := by
  apply either_viable
  simp only [List.forall_mem_cons]
  refine ⟨either_viable ?_, color_viable _, by simp⟩
  simp only [List.forall_mem_cons]
  exact ⟨move_viable _, bare_viable _ _, bare_viable _ _, bare_viable _ _, jump_viable _,
    assign_viable _, times_viable viable, loop_viable viable, branch_viable viable careful,
    call_viable _, by simp⟩

theorem blockOf_viable {command : Reader Command}
    (viable : ViableUpTo n Command.tokens Command.Longest command)
    (careful : Careful n Command.tokens Command.Longest command) :
    ViableUpTo n Block.tokens Block.Longest (Block.readOf command n) := by
  intro ts fault rest room h
  obtain ⟨_, ts1, opened, h⟩ := (take_silent _ _).started h
  rw [(takeMark_eq_matched opened).1] at room ⊢
  rw [List.length_cons] at room
  rcases (lineEnd_silent n).expected h with rfl | ⟨opening, ts2, first, h⟩
  · exact ⟨.simple, trivial, (Cut.here rfl).cons _⟩
  rw [lineEnd_sound n _ _ _ first] at room ⊢
  rw [List.length_append] at room
  rcases started h with inside | ⟨commands, ts3, inner, h⟩
  · obtain ⟨commands, each, cut⟩ := many_viable viable careful n _ _ _ (by omega) inside
    have longest := (Commands.longest_ofList commands).mpr each
    have begun : Cut ts2 rest (Commands.ofList commands).tokens := by
      rw [Commands.tokens_ofList]
      exact cut
    exact ⟨.braces opening (.ofList commands) .simple, longest,
      ((begun.append rfl).after opening.tokens).cons _⟩
  obtain ⟨same, each⟩ := many_careful careful n _ _ _ (by omega) inner
  have longest := (Commands.longest_ofList commands).mpr each
  have split : ts2 = (Commands.ofList commands).tokens ++ ts3 := by
    rw [Commands.tokens_ofList]
    exact same
  rw [split]
  rcases (take_silent _ _).expected h with rfl | ⟨_, ts4, closes, h⟩
  · exact ⟨.braces opening (.ofList commands) .simple, longest,
      (((Cut.here rfl).after _).after opening.tokens).cons _⟩
  rw [(takeMark_eq_matched closes).1]
  obtain rfl := closed_eq_failed h
  exact ⟨.braces opening (.ofList commands) .simple, longest,
    ((((Cut.here rfl).cons _).after _).after opening.tokens).cons _⟩

end Blocks

theorem command_viable (n : Nat) :
    ViableUpTo n Command.tokens Command.Longest (Command.read n) := by
  induction n with
  | zero =>
    intro ts fault rest room h
    cases h
  | succ n ih =>
    have careful := command_careful n
    exact commandWith_viable (blockOf_viable ih careful) (blockOf_careful careful)

theorem procedure_viable (n : Nat) :
    ViableUpTo n Procedure.tokens (·.body.Longest) (Procedure.read n) := by
  intro ts fault rest room h
  obtain ⟨_, ts1, head, h⟩ := (take_silent _ _).started h
  rw [(takeWord_eq_matched head).1] at room ⊢
  rw [List.length_cons] at room
  rcases (take_silent _ _).expected h with rfl | ⟨name, ts2, named, h⟩
  · exact ⟨.simple, trivial, (Cut.here rfl).cons _⟩
  rw [name_sound _ _ _ named] at room ⊢
  rw [List.length_append] at room
  rcases started h with inside | ⟨parameters, ts3, listed, h⟩
  · exact absurd inside (many_silent (take_silent _ _) n _ _ _)
  have split : ts2 = parameters.map naming ++ ts3 := by
    rw [List.map_eq_flatMap]
    exact many_sound name_sound n _ _ _ listed
  rw [split, List.length_append] at room
  rw [split]
  have block := blockOf_viable (command_viable n) (command_careful n)
  rcases block.expected (by omega) (a := .simple) trivial rfl h with
    ⟨body, longest, cut⟩ | ⟨body, ts4, _, none⟩
  · exact ⟨⟨name, parameters, body⟩, longest,
      ((cut.after (parameters.map naming)).cons _).cons _⟩
  · cases none

end TurtleGraphics.Phrase
