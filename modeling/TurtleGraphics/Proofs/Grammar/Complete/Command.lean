import TurtleGraphics.Proofs.Grammar.Complete.Expression
import TurtleGraphics.Proofs.Grammar.Sound.Command

/-!
What is there is read, for commands, procedures and scripts. A command is found again in front of
any tokens that are neither a further line end nor `else`.
-/

namespace TurtleGraphics.Phrase

variable {α : Type}

def startsLineEnd : List Token → Bool
  | [] => false
  | t :: _ => t.kind == .endOfLine

/-- The tokens could belong to the command before them. -/
def goesOn : List Token → Bool
  | [] => false
  | t :: ts => startsLineEnd (t :: ts) || t == word "else"

theorem startsLineEnd_of_goesOn {ts : List Token} (stops : goesOn ts = false) :
    startsLineEnd ts = false := by
  cases ts with
  | nil => rfl
  | cons t ts => exact (Bool.or_eq_false_iff.mp stops).1

theorem either_skip {r : Reader α} {rs : List (Reader α)} {ts : List Token}
    (h : r ts = .passed) : either (r :: rs) ts = either rs ts := by
  rw [either_cons, h]
  rfl

theorem either_take {r : Reader α} {rs : List (Reader α)} {ts rest : List Token} {a : α}
    (h : r ts = .matched a rest) : either (r :: rs) ts = .matched a rest := by
  rw [either_cons, h]
  rfl

theorem many_complete {tokens : α → List Token} {read : Reader α} (good : List Token → Prop)
    {as : List α} {n : Nat} {rest : List Token}
    (each : ∀ a ∈ as, ∀ ts, good ts → read (tokens a ++ ts) = .matched a ts)
    (follows : ∀ a ∈ as, ∀ ts, good (tokens a ++ ts)) (last : good rest)
    (stop : read rest = .passed) (steps : as.length ≤ n) :
    many read n (as.flatMap tokens ++ rest) = .matched as rest := by
  induction as generalizing n with
  | nil =>
    cases n with
    | zero => rfl
    | succ n => simp only [List.flatMap_nil, List.nil_append, many, stop, Reading.andThen]
  | cons a as ih =>
    simp only [List.length_cons] at steps
    cases n with
    | zero => omega
    | succ n =>
      have further : good (as.flatMap tokens ++ rest) := by
        cases as with
        | nil => exact last
        | cons b as =>
          rw [List.flatMap_cons, List.append_assoc]
          exact follows b (by simp) _
      have others := ih (n := n) (fun b member => each b (by simp [member]))
        (fun b member => follows b (by simp [member])) (by omega)
      simp only [List.flatMap_cons, List.append_assoc, many, each a (by simp) _ further, others,
        Reading.andThen, Reading.map]

theorem takeEndOfLine_eq_passed {ts : List Token} (stops : startsLineEnd ts = false) :
    takeEndOfLine ts = .passed := by
  cases ts with
  | nil => rfl
  | cons t ts =>
    simp only [startsLineEnd] at stops
    simp [takeEndOfLine, take, Grammar.Wanted.accepts, stops]

theorem LineEnd.complete (l : LineEnd) {n : Nat} {rest : List Token}
    (stops : startsLineEnd rest = false)
    (room : l.tokens.length ≤ n + 1) : LineEnd.read n (l.tokens ++ rest) = .matched l rest := by
  obtain ⟨first, more⟩ := l
  simp only [LineEnd.tokens, List.length_cons, List.length_map] at room
  have start (ts : List Token) : takeEndOfLine (endOfLine first :: ts) = .matched first ts := rfl
  have others : many takeEndOfLine n (more.map endOfLine ++ rest) = .matched more rest := by
    rw [List.map_eq_flatMap]
    exact many_complete (fun _ => True) (fun _ _ _ _ => rfl) (fun _ _ _ => trivial) trivial
      (takeEndOfLine_eq_passed stops) (by omega)
  simp only [LineEnd.tokens, List.cons_append, LineEnd.read, start, others, Reading.andThen,
    Reading.map]

theorem closed_complete (l : LineEnd) {n : Nat} {fault : Grammar.Fault} {f : LineEnd → α}
    {rest : List Token} (stops : startsLineEnd rest = false) (room : l.tokens.length ≤ n + 1) :
    closed n fault f (l.tokens ++ rest) = .matched (f l) rest := by
  simp only [closed, l.complete stops room, Reading.andThen]

theorem Expression.not_startsScaled (e : Expression) (ts : List Token) :
    startsScaled (e.tokens ++ ts) = false := by
  obtain ⟨sign, u, more, further⟩ := e
  cases sign with
  | some op => cases op <;> rfl
  | none => cases u <;> rfl

theorem Expression.tokens_pos (e : Expression) : 0 < e.tokens.length := by
  obtain ⟨sign, u, more, further⟩ := e
  have some_token := u.tokens_pos
  simp only [Expression.tokens, List.length_append]
  omega

theorem Expression.stops_of_longestBefore {e : Expression} {rest : List Token}
    (h : e.LongestBefore rest) : startsSigned rest = false := by
  cases e
  exact h.1

theorem expression_passed (n : Nat) (close : LineEnd) (rest : List Token) :
    Expression.read n (close.tokens ++ rest) = .passed := by
  cases n <;> rfl

theorem arguments_complete {n k : Nat} {es : List Expression} {close : LineEnd}
    (rest : List Token) (longest : LongestAllBefore close.tokens es)
    (steps : (es.flatMap Expression.tokens).length ≤ k)
    (room : (es.flatMap Expression.tokens).length ≤ n) :
    many (Expression.read n) k (es.flatMap Expression.tokens ++ (close.tokens ++ rest)) =
      .matched es (close.tokens ++ rest) := by
  induction es generalizing k with
  | nil =>
    cases k with
    | zero => rfl
    | succ k =>
      simp only [List.flatMap_nil, List.nil_append, many, expression_passed, Reading.andThen]
  | cons e es ih =>
    have some_token := e.tokens_pos
    simp only [List.flatMap_cons, List.length_append] at steps room
    cases k with
    | zero => omega
    | succ k =>
      have stops := e.stops_of_longestBefore longest.1
      rw [← startsSigned_close _ rest] at stops
      have scaled :
          startsScaled (es.flatMap Expression.tokens ++ (close.tokens ++ rest)) = false := by
        cases es with
        | nil => rfl
        | cons e es =>
          rw [List.flatMap_cons, List.append_assoc]
          exact e.not_startsScaled _
      have first := e.complete stops scaled (by omega : e.tokens.length ≤ n)
      have others := ih (k := k) longest.2 (by omega) (by omega)
      simp only [List.flatMap_cons, List.append_assoc, many, first, others, Reading.andThen,
        Reading.map]

theorem Comparator.stops (op : Comparator) (ts : List Token) :
    startsSigned (mark op.text :: ts) = false ∧ startsScaled (mark op.text :: ts) = false := by
  cases op <;> exact ⟨rfl, rfl⟩

theorem Condition.complete (c : Condition) {n : Nat} {rest : List Token}
    (stops : startsSigned rest = false) (scaled : startsScaled rest = false)
    (room : c.tokens.length ≤ n) : Condition.read n (c.tokens ++ rest) = .matched c rest := by
  obtain ⟨left, op, right⟩ := c
  simp only [Condition.tokens, List.length_append, List.length_cons] at room
  obtain ⟨signed, factors⟩ := op.stops (right.tokens ++ rest)
  have first := left.complete signed factors (by omega : left.tokens.length ≤ n)
  have second := right.complete stops scaled (by omega : right.tokens.length ≤ n)
  simp only [Condition.tokens, List.append_assoc, List.cons_append, Condition.read, first,
    comparator_complete, second, Reading.andThen]

theorem headed_passed {text : String} {a : α} {next : α → List Token → Reading Command} {t : Token}
    {ts : List Token} (other : t ≠ word text) :
    (takeWord text a (t :: ts)).andThen .passed next = .passed := by
  have passed : takeWord text a (t :: ts) = .passed := take_eq_passed.mpr other
  rw [passed]
  rfl

def commandWords : List String :=
  ["forward", "right", "left", "face", "penup", "pendown", "home", "jump", "set", "repeat", "while",
   "if", "do"]

theorem worded_passed {block : Reader Block} {n : Nat} {t : Token} {ts : List Token}
    (other : ∀ text ∈ commandWords, t ≠ word text) :
    Command.readWorded block n (t :: ts) = .passed := by
  simp only [commandWords, List.forall_mem_cons] at other
  obtain ⟨forward, right, left, face, penUp, penDown, home, jump, set, times, loop, branch, call,
    -⟩ := other
  have move : Command.readMove n (t :: ts) = .passed := by
    have heads : either [takeWord "forward" Move.forward, takeWord "right" .right,
        takeWord "left" .left, takeWord "face" .face] (t :: ts) = .passed := by
      simp only [either_eq_passed, List.forall_mem_cons]
      exact ⟨take_eq_passed.mpr forward, take_eq_passed.mpr right, take_eq_passed.mpr left,
        take_eq_passed.mpr face, by simp⟩
    simp only [Command.readMove, heads, Reading.andThen]
  simp only [Command.readWorded, either_eq_passed, List.forall_mem_cons]
  exact ⟨move, headed_passed penUp, headed_passed penDown, headed_passed home, headed_passed jump,
    headed_passed set, headed_passed times, headed_passed loop, headed_passed branch,
    headed_passed call, by simp⟩

theorem command_passed {n : Nat} {t : Token} {ts : List Token}
    (other : ∀ text ∈ commandWords, t ≠ word text) (noColor : t ≠ word "color")
    (noName : ∀ c : Palette, t ≠ word c.name) : Command.read n (t :: ts) = .passed := by
  cases n with
  | zero => rfl
  | succ n =>
    have named : Shade.readNamed (t :: ts) = .passed := by
      refine either_eq_passed.mpr fun r member => ?_
      obtain ⟨c, -, rfl⟩ := List.mem_map.mp member
      exact take_eq_passed.mpr (noName c)
    have mixed : Shade.readMixed (n + 1) (t :: ts) = .passed := by
      have passed : takeWord "color" () (t :: ts) = .passed := take_eq_passed.mpr noColor
      simp only [Shade.readMixed, passed, Reading.andThen]
    have shade : Shade.read (n + 1) (t :: ts) = .passed := by
      simp only [Shade.read, either_eq_passed, List.forall_mem_cons]
      exact ⟨named, mixed, by simp⟩
    have color : Command.readColor (n + 1) (t :: ts) = .passed := by
      simp only [Command.readColor, shade, Reading.andThen]
    simp only [Command.read, Command.readWith, either_eq_passed, List.forall_mem_cons]
    exact ⟨worded_passed other, color, by simp⟩

section Lines

variable {n : Nat} {rest : List Token} {close : LineEnd}

theorem takeWord_complete (text : String) (a : α) (ts : List Token) :
    takeWord text a (word text :: ts) = .matched a ts := by
  have wanted : (⟨.keyword, some text⟩ : Grammar.Wanted).accepts (word text) = true := by
    rw [Grammar.Wanted.accepts_eq]
    exact beq_self_eq_true _
  simp only [takeWord, take, if_pos wanted]

theorem takeName_complete (name : String) (ts : List Token) :
    takeName (naming name :: ts) = .matched name ts :=
  rfl

theorem move_complete {m : Move} {e : Expression} (stops : goesOn rest = false)
    (room : (Command.move m e close).tokens.length ≤ n) :
    Command.readMove n ((Command.move m e close).tokens ++ rest) =
      .matched (.move m e close) rest := by
  simp only [Command.tokens, List.length_cons, List.length_append] at room
  have head (ts : List Token) : either [takeWord "forward" Move.forward, takeWord "right" .right,
      takeWord "left" .left, takeWord "face" .face] (word m.text :: ts) = .matched m ts := by
    cases m <;> rfl
  have first : Expression.read n (e.tokens ++ (close.tokens ++ rest)) =
    .matched e (close.tokens ++ rest) := e.complete rfl rfl (by omega)
  simp only [Command.tokens, List.cons_append, List.append_assoc, Command.readMove, head, first,
    Reading.andThen]
  exact closed_complete close (startsLineEnd_of_goesOn stops) (by omega)

theorem bare_complete {b : Bare} (stops : goesOn rest = false)
    (room : (Command.bare b close).tokens.length ≤ n) :
    Command.readBare b n ((Command.bare b close).tokens ++ rest) =
      .matched (.bare b close) rest := by
  simp only [Command.tokens, List.length_cons] at room
  simp only [Command.tokens, List.cons_append, Command.readBare, takeWord_complete,
    Reading.andThen]
  exact closed_complete close (startsLineEnd_of_goesOn stops) (by omega)

theorem jump_complete {x y : Expression} (longest : (Command.jump x y close).Longest)
    (stops : goesOn rest = false) (room : (Command.jump x y close).tokens.length ≤ n) :
    Command.readJump n ((Command.jump x y close).tokens ++ rest) =
      .matched (.jump x y close) rest := by
  simp only [Command.tokens, List.length_cons, List.length_append] at room
  have signed := Expression.stops_of_longestBefore longest.1
  rw [startsSigned_tokens, ← startsSigned_tokens y (close.tokens ++ rest)] at signed
  have first := x.complete signed (y.not_startsScaled _) (by omega : x.tokens.length ≤ n)
  have second : Expression.read n (y.tokens ++ (close.tokens ++ rest)) =
    .matched y (close.tokens ++ rest) := y.complete rfl rfl (by omega)
  simp only [Command.tokens, List.cons_append, List.append_assoc, Command.readJump,
    takeWord_complete, first, second, Reading.andThen]
  exact closed_complete close (startsLineEnd_of_goesOn stops) (by omega)

theorem assign_complete {name : String} {e : Expression} (stops : goesOn rest = false)
    (room : (Command.assign name e close).tokens.length ≤ n) :
    Command.readAssign n ((Command.assign name e close).tokens ++ rest) =
      .matched (.assign name e close) rest := by
  simp only [Command.tokens, List.length_cons, List.length_append] at room
  have first : Expression.read n (e.tokens ++ (close.tokens ++ rest)) =
    .matched e (close.tokens ++ rest) := e.complete rfl rfl (by omega)
  simp only [Command.tokens, List.cons_append, List.append_assoc, Command.readAssign,
    takeWord_complete, takeName_complete, first, Reading.andThen]
  exact closed_complete close (startsLineEnd_of_goesOn stops) (by omega)

theorem call_complete {name : String} {es : List Expression}
    (longest : (Command.call name es close).Longest) (stops : goesOn rest = false)
    (room : (Command.call name es close).tokens.length ≤ n) :
    Command.readCall n ((Command.call name es close).tokens ++ rest) =
      .matched (.call name es close) rest := by
  simp only [Command.tokens, List.length_cons, List.length_append] at room
  have arguments := arguments_complete rest longest (by omega : _ ≤ n) (by omega : _ ≤ n)
  simp only [Command.tokens, List.cons_append, List.append_assoc, Command.readCall,
    takeWord_complete, takeName_complete, arguments, Reading.andThen]
  exact closed_complete close (startsLineEnd_of_goesOn stops) (by omega)

theorem shade_complete {shade : Shade} (longest : shade.LongestBefore close.tokens)
    (room : shade.tokens.length ≤ n) :
    Shade.read n (shade.tokens ++ (close.tokens ++ rest)) =
      .matched shade (close.tokens ++ rest) := by
  cases shade with
  | named c =>
    apply either_take
    cases c <;> rfl
  | mixed red green blue =>
    simp only [Shade.tokens, List.length_cons, List.length_append] at room
    have signed := Expression.stops_of_longestBefore longest.1
    have signed' := Expression.stops_of_longestBefore longest.2.1
    rw [startsSigned_tokens, ← startsSigned_tokens green (blue.tokens ++ (close.tokens ++ rest))]
      at signed
    rw [← startsSigned_tokens blue (close.tokens ++ rest)] at signed'
    have first := red.complete signed (green.not_startsScaled _) (by omega : red.tokens.length ≤ n)
    have second :=
      green.complete signed' (blue.not_startsScaled _) (by omega : green.tokens.length ≤ n)
    have third : Expression.read n (blue.tokens ++ (close.tokens ++ rest)) =
      .matched blue (close.tokens ++ rest) := blue.complete rfl rfl (by omega)
    refine (either_skip rfl).trans (either_take ?_)
    simp only [Shade.tokens, List.cons_append, List.append_assoc, Shade.readMixed,
      takeWord_complete, first, second, third, Reading.andThen]

theorem color_complete {shade : Shade} (longest : (Command.color shade close).Longest)
    (stops : goesOn rest = false) (room : (Command.color shade close).tokens.length ≤ n) :
    Command.readColor n ((Command.color shade close).tokens ++ rest) =
      .matched (.color shade close) rest := by
  simp only [Command.tokens, List.length_append] at room
  have first : Shade.read n (shade.tokens ++ (close.tokens ++ rest)) =
    .matched shade (close.tokens ++ rest) := shade_complete longest (by omega)
  simp only [Command.tokens, List.append_assoc, Command.readColor, first, Reading.andThen]
  exact closed_complete close (startsLineEnd_of_goesOn stops) (by omega)

end Lines

section Blocks

variable {n : Nat} {rest : List Token} {block : Reader Block}

theorem Block.stops (b : Block) (ts : List Token) :
    startsSigned (b.tokens ++ ts) = false ∧ startsScaled (b.tokens ++ ts) = false := by
  cases b
  exact ⟨rfl, rfl⟩

theorem times_complete {e : Expression} {body : Block}
    (inner : block (body.tokens ++ rest) = .matched body rest)
    (room : (Command.times e body).tokens.length ≤ n) :
    Command.readTimes block n ((Command.times e body).tokens ++ rest) =
      .matched (.times e body) rest := by
  simp only [Command.tokens, List.length_cons, List.length_append] at room
  obtain ⟨signed, scaled⟩ := body.stops rest
  have first := e.complete signed scaled (by omega : e.tokens.length ≤ n)
  simp only [Command.tokens, List.cons_append, List.append_assoc, Command.readTimes,
    takeWord_complete, first, inner, Reading.andThen]

theorem loop_complete {c : Condition} {body : Block}
    (inner : block (body.tokens ++ rest) = .matched body rest)
    (room : (Command.loop c body).tokens.length ≤ n) :
    Command.readLoop block n ((Command.loop c body).tokens ++ rest) =
      .matched (.loop c body) rest := by
  simp only [Command.tokens, List.length_cons, List.length_append] at room
  obtain ⟨signed, scaled⟩ := body.stops rest
  have first := c.complete signed scaled (by omega : c.tokens.length ≤ n)
  simp only [Command.tokens, List.cons_append, List.append_assoc, Command.readLoop,
    takeWord_complete, first, inner, Reading.andThen]

theorem branch_complete {c : Condition} {body : Block} (stops : goesOn rest = false)
    (inner : block (body.tokens ++ rest) = .matched body rest)
    (room : (Command.branch c body).tokens.length ≤ n) :
    Command.readBranch block n ((Command.branch c body).tokens ++ rest) =
      .matched (.branch c body) rest := by
  simp only [Command.tokens, List.length_cons, List.length_append] at room
  obtain ⟨signed, scaled⟩ := body.stops rest
  have first := c.complete signed scaled (by omega : c.tokens.length ≤ n)
  have none : takeWord "else" () rest = .passed := by
    cases rest with
    | nil => rfl
    | cons t ts =>
      have other := (Bool.or_eq_false_iff.mp stops).2
      exact take_eq_passed.mpr (ne_of_beq_false other)
  simp only [Command.tokens, List.cons_append, List.append_assoc, Command.readBranch,
    takeWord_complete, first, inner, none, Reading.andThen]

theorem branchElse_complete {c : Condition} {body otherwise : Block}
    (inner : block (body.tokens ++ word "else" :: (otherwise.tokens ++ rest)) =
      .matched body (word "else" :: (otherwise.tokens ++ rest)))
    (further : block (otherwise.tokens ++ rest) = .matched otherwise rest)
    (room : (Command.branchElse c body otherwise).tokens.length ≤ n) :
    Command.readBranch block n ((Command.branchElse c body otherwise).tokens ++ rest) =
      .matched (.branchElse c body otherwise) rest := by
  simp only [Command.tokens, List.length_cons, List.length_append] at room
  obtain ⟨signed, scaled⟩ := body.stops (word "else" :: (otherwise.tokens ++ rest))
  have first := c.complete signed scaled (by omega : c.tokens.length ≤ n)
  simp only [Command.tokens, List.cons_append, List.append_assoc, Command.readBranch,
    takeWord_complete, first, inner, further, Reading.andThen]

end Blocks

theorem Command.not_goesOn (c : Command) (ts : List Token) : goesOn (c.tokens ++ ts) = false := by
  cases c with
  | move m => cases m <;> rfl
  | bare b => cases b <;> rfl
  | color shade =>
    cases shade with
    | named c => cases c <;> rfl
    | mixed => rfl
  | _ => rfl

theorem Command.tokens_pos (c : Command) : 0 < c.tokens.length := by
  cases c with
  | color shade => cases shade <;> simp [Command.tokens, Shade.tokens]
  | _ => simp [Command.tokens]

theorem commands_not_goesOn (cs : Commands) {ts : List Token} (stops : goesOn ts = false) :
    goesOn (cs.tokens ++ ts) = false := by
  cases cs with
  | nil => exact stops
  | cons c more =>
    rw [Commands.tokens, List.append_assoc]
    exact c.not_goesOn _

theorem shade_worded {block : Reader Block} {n : Nat} (shade : Shade) (ts : List Token) :
    Command.readWorded block n (shade.tokens ++ ts) = .passed := by
  cases shade with
  | named c => exact worded_passed (by cases c <;> decide)
  | mixed red green blue => exact worded_passed (by decide)

theorem closing_passed (n : Nat) (ts : List Token) :
    Command.read n (mark "\x7d" :: ts) = .passed :=
  command_passed (by decide) (by decide) (fun c => by cases c <;> decide)

mutual

theorem Command.complete {n : Nat} {rest : List Token} (stops : goesOn rest = false) :
    (c : Command) → c.Longest → c.tokens.length ≤ n →
      Command.read n (c.tokens ++ rest) = .matched c rest
  | c, longest, room => by
    have some_token := c.tokens_pos
    cases n with
    | zero => omega
    | succ n =>
      match c with
      | .move m e close => exact either_take (either_take (move_complete stops room))
      | .bare b close =>
        have read := bare_complete stops room
        apply either_take
        cases b with
        | penUp => exact (either_skip rfl).trans (either_take read)
        | penDown => exact (either_skip rfl).trans ((either_skip rfl).trans (either_take read))
        | home =>
          rw [Command.readWorded, either_skip, either_skip, either_skip, either_take read] <;> rfl
      | .jump x y close =>
        have read := jump_complete longest stops room
        apply either_take
        rw [Command.readWorded, either_skip, either_skip, either_skip, either_skip,
          either_take read] <;> rfl
      | .assign name e close =>
        have read := assign_complete stops room
        apply either_take
        rw [Command.readWorded, either_skip, either_skip, either_skip, either_skip, either_skip,
          either_take read] <;> rfl
      | .times e body =>
        have small : body.tokens.length ≤ n + 1 := by
          simp only [Command.tokens, List.length_cons, List.length_append] at room
          omega
        have inner := body.complete (startsLineEnd_of_goesOn stops) longest.2 small
        have read := times_complete inner room
        apply either_take
        rw [Command.readWorded, either_skip, either_skip, either_skip, either_skip, either_skip,
          either_skip, either_take read] <;> rfl
      | .loop c body =>
        have small : body.tokens.length ≤ n + 1 := by
          simp only [Command.tokens, List.length_cons, List.length_append] at room
          omega
        have inner := body.complete (startsLineEnd_of_goesOn stops) longest.2 small
        have read := loop_complete inner room
        apply either_take
        rw [Command.readWorded, either_skip, either_skip, either_skip, either_skip, either_skip,
          either_skip, either_skip, either_take read] <;> rfl
      | .branch c body =>
        have small : body.tokens.length ≤ n + 1 := by
          simp only [Command.tokens, List.length_cons, List.length_append] at room
          omega
        have inner := body.complete (startsLineEnd_of_goesOn stops) longest.2 small
        have read := branch_complete stops inner room
        apply either_take
        rw [Command.readWorded, either_skip, either_skip, either_skip, either_skip, either_skip,
          either_skip, either_skip, either_skip, either_take read] <;> rfl
      | .branchElse c body otherwise =>
        have small : body.tokens.length ≤ n + 1 ∧ otherwise.tokens.length ≤ n + 1 := by
          simp only [Command.tokens, List.length_cons, List.length_append] at room
          omega
        have inner := body.complete
          (rfl : startsLineEnd (word "else" :: (otherwise.tokens ++ rest)) = false)
          longest.2.1 small.1
        have further := otherwise.complete (startsLineEnd_of_goesOn stops) longest.2.2 small.2
        have read := branchElse_complete inner further room
        apply either_take
        rw [Command.readWorded, either_skip, either_skip, either_skip, either_skip, either_skip,
          either_skip, either_skip, either_skip, either_take read] <;> rfl
      | .call name es close =>
        have read := call_complete longest stops room
        apply either_take
        rw [Command.readWorded, either_skip, either_skip, either_skip, either_skip, either_skip,
          either_skip, either_skip, either_skip, either_skip, either_take read] <;> rfl
      | .color shade close =>
        have none : Command.readWorded (Block.readOf (Command.read n) n) (n + 1)
            ((Command.color shade close).tokens ++ rest) = .passed := by
          rw [Command.tokens, List.append_assoc]
          exact shade_worded shade _
        exact (either_skip none).trans (either_take (color_complete longest stops room))

theorem Block.complete {n : Nat} {rest : List Token} (stops : startsLineEnd rest = false) :
    (b : Block) → b.Longest → b.tokens.length ≤ n + 1 →
      Block.readOf (Command.read n) n (b.tokens ++ rest) = .matched b rest
  | .braces opening commands close, longest, room => by
    simp only [Block.tokens, List.length_cons, List.length_append] at room
    have inside := startsLineEnd_of_goesOn (commands_not_goesOn commands
      (rfl : goesOn (mark "\x7d" :: (close.tokens ++ rest)) = false))
    have first := opening.complete inside (by omega : _ ≤ n + 1)
    have all := commands.complete rfl (closing_passed n (close.tokens ++ rest)) longest
      (by omega : _ ≤ n) (by omega)
    have opened (ts : List Token) : takeMark "\x7b" () (mark "\x7b" :: ts) = .matched () ts := rfl
    have shut (ts : List Token) : takeMark "\x7d" () (mark "\x7d" :: ts) = .matched () ts := rfl
    simp only [Block.tokens, List.cons_append, List.append_assoc, Block.readOf, Block.readClose,
      opened, first, all, shut, Reading.andThen, Commands.ofList_toList]
    exact closed_complete close stops (by omega)

theorem Commands.complete {n k : Nat} {rest : List Token} (stops : goesOn rest = false)
    (none : Command.read n rest = .passed) :
    (cs : Commands) → cs.Longest → cs.tokens.length ≤ k → cs.tokens.length ≤ n →
      many (Command.read n) k (cs.tokens ++ rest) = .matched cs.toList rest
  | .nil, _, _, _ => by
    cases k with
    | zero => rfl
    | succ k =>
      simp only [Commands.tokens, List.nil_append, many, none, Reading.andThen, Commands.toList]
  | .cons c more, longest, steps, room => by
    have some_token := c.tokens_pos
    simp only [Commands.tokens, List.length_append] at steps room
    cases k with
    | zero => omega
    | succ k =>
      have first := c.complete (commands_not_goesOn more stops) longest.1
        (by omega : c.tokens.length ≤ n)
      have others := more.complete stops none longest.2 (by omega : _ ≤ k) (by omega)
      simp only [Commands.tokens, List.append_assoc, many, first, others, Reading.andThen,
        Reading.map, Commands.toList]

end

theorem Procedure.complete (p : Procedure) {n : Nat} {rest : List Token}
    (stops : startsLineEnd rest = false) (longest : p.body.Longest) (room : p.tokens.length ≤ n) :
    Procedure.read n (p.tokens ++ rest) = .matched p rest := by
  obtain ⟨name, parameters, body⟩ := p
  simp only [Procedure.tokens, List.length_cons, List.length_append, List.length_map] at room
  have none : takeName (body.tokens ++ rest) = .passed := by
    cases body
    rfl
  have listed : many takeName n (parameters.map naming ++ (body.tokens ++ rest)) =
      .matched parameters (body.tokens ++ rest) := by
    rw [List.map_eq_flatMap]
    exact many_complete (fun _ => True) (fun _ _ _ _ => rfl) (fun _ _ _ => trivial) trivial none
      (by omega)
  have inner : Block.read n (body.tokens ++ rest) = .matched body rest :=
    body.complete stops longest (by omega)
  simp only [Procedure.tokens, List.cons_append, List.append_assoc, Procedure.read,
    takeWord_complete, takeName_complete, listed, Procedure.readBody, inner, Reading.andThen]

theorem procedures_stop (ps : List Procedure) :
    goesOn (ps.flatMap Procedure.tokens ++ [Token.theEnd]) = false ∧
      ∀ n, Command.read n (ps.flatMap Procedure.tokens ++ [Token.theEnd]) = .passed := by
  cases ps with
  | nil =>
    exact ⟨rfl, fun n => command_passed (by decide) (by decide) (fun c => by cases c <;> decide)⟩
  | cons p ps =>
    exact ⟨rfl, fun n => command_passed (by decide) (by decide) (fun c => by cases c <;> decide)⟩

theorem length_tokens_le (tokens : α → List Token) {as : List α} {a : α} (member : a ∈ as) :
    (tokens a).length ≤ (as.flatMap tokens).length := by
  obtain ⟨before, after, rfl⟩ := List.append_of_mem member
  simp only [List.flatMap_append, List.flatMap_cons, List.length_append]
  omega

theorem length_le_tokens (tokens : α → List Token) (some_token : ∀ a, 0 < (tokens a).length)
    (as : List α) : as.length ≤ (as.flatMap tokens).length := by
  induction as with
  | nil => simp
  | cons a as ih =>
    have first := some_token a
    simp only [List.flatMap_cons, List.length_append, List.length_cons]
    omega

theorem Script.complete (s : Script) {n : Nat} (longest : s.Longest) (room : s.tokens.length ≤ n) :
    Script.read n s.tokens = .matched s [] := by
  obtain ⟨blank, first, more, procedures⟩ := s
  let ending : List Token := procedures.flatMap Procedure.tokens ++ [Token.theEnd]
  let tokens : List Token := first.tokens ++ (more.flatMap Command.tokens ++ ending)
  simp only [Script.tokens, List.length_append, List.length_map] at room
  obtain ⟨stops, none⟩ := procedures_stop procedures
  have inside := commands_not_goesOn (.ofList more) stops
  rw [Commands.tokens_ofList] at inside
  have head : Command.read n tokens = .matched first (more.flatMap Command.tokens ++ ending) :=
    first.complete inside longest.1 (by omega)
  have steps := length_le_tokens Command.tokens Command.tokens_pos more
  have tail : many (Command.read n) n (more.flatMap Command.tokens ++ ending) =
      .matched more ending := by
    refine many_complete (goesOn · = false) ?_ (fun c _ => c.not_goesOn) stops (none n) (by omega)
    intro c member ts free
    have small := length_tokens_le Command.tokens member
    exact c.complete free (longest.2.1 c member) (by omega)
  have steps' := length_le_tokens Procedure.tokens (fun p => by simp [Procedure.tokens])
    procedures
  have defined : many (Procedure.read n) n ending = .matched procedures [Token.theEnd] := by
    refine many_complete (startsLineEnd · = false) ?_ (fun _ _ _ => rfl) rfl rfl (by omega)
    intro p member ts free
    have small := length_tokens_le Procedure.tokens member
    exact p.complete free (longest.2.2 p member) (by omega)
  have last : take ⟨.endOfInput, Option.none⟩ id [Token.theEnd] = .matched Token.theEnd [] := rfl
  have trimmed : Script.readTrimmed n blank tokens =
      .matched ⟨blank, first, more, procedures⟩ [] := by
    simp only [Script.readTrimmed, head, tail, defined, last, Reading.andThen]
  have free : startsLineEnd tokens = false := startsLineEnd_of_goesOn (first.not_goesOn _)
  cases blank with
  | nil =>
    have missing : LineEnd.read n tokens = .passed := by
      simp only [LineEnd.read, takeEndOfLine_eq_passed free, Reading.andThen]
    change Script.read n tokens = _
    simp only [Script.read, missing, trimmed, Reading.andThen]
  | cons text blank =>
    simp only [List.length_cons] at room
    have read : LineEnd.read n (endOfLine text :: (blank.map endOfLine ++ tokens)) =
        .matched ⟨text, blank⟩ tokens :=
      LineEnd.complete ⟨text, blank⟩ free (by simp [LineEnd.tokens]; omega)
    change Script.read n (endOfLine text :: (blank.map endOfLine ++ tokens)) = _
    simp only [Script.read, read, trimmed, Reading.andThen]

end TurtleGraphics.Phrase
