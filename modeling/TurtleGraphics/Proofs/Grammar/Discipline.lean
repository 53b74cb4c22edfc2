import TurtleGraphics.Grammar.Attempt
import TurtleGraphics.Proofs.Grammar.Tidy

/-!
What can be relied on between attempts, whatever was tried before and failed: the stack holds
different roots of a forest in order, and a rule that is tried next puts one tree of new nodes on
it, or changes nothing, or fails for a reason that lies in the text.
-/

namespace TurtleGraphics

def Nonterminal.trees : Nonterminal → Nat
  | lineEnd => 0
  | _ => 1

namespace Grammar

theorem rule_tidy (n : Nat) {nt : Nonterminal} (other : nt ≠ .program) :
    Tidy nt.trees n (rule n nt) := by
  cases nt with
  | program => exact absurd rfl other
  | command => exact command_tidy n
  | procedure => exact procedure_tidy n
  | block => exact block_tidy n
  | lineEnd => exact lineEnd_tidy n n
  | move => exact move_tidy n
  | color => exact color_tidy n
  | penUp | penDown | home => exact bare_tidy _ n
  | jump => exact jump_tidy n
  | assign => exact assign_tidy n
  | times => exact timesWith_tidy (block_tidy n) (Nat.le_succ n)
  | loop => exact loopWith_tidy (block_tidy n) (Nat.le_succ n)
  | branch => exact branchWith_tidy (block_tidy n) (Nat.le_succ n)
  | call => exact call_tidy n
  | condition => exact condition_tidy n
  | comparator => exact comparator_tidy n
  | expression => exact expression_tidy n
  | term => exact term_tidy n
  | factor => exact factor_tidy n
  | addOperator => exact addOperator_tidy n
  | multiplyOperator => exact multiplyOperator_tidy n
  | variableName => exact leaf_tidy _ n

structure Skipped (s s' : State) : Prop where
  stack : s'.stack = s.stack
  forest : s'.forest = s.forest
  tokens : ∃ dropped, (∀ x ∈ dropped, x.token.kind = .endOfLine) ∧
    s.feed.ahead = dropped ++ s'.feed.ahead
  peeked : s'.feed.Peeked

inductive Attempted (nt : Nonterminal) (s : State) : EStateM.Result SyntaxError State Bool → Prop
  | matched {s' : State} {pushed : List Nat} (count : pushed.length = nt.trees)
    (under : Underway s s' [] pushed) : Attempted nt s (.ok true s')
  | passed {s' : State} (skipped : Skipped s s')
    (still : nt ≠ .program → s'.feed.ahead = s.feed.ahead) : Attempted nt s (.ok false s')
  | failed {s' : State} {fault : Fault} {held pushed : List Nat}
    (ordinary : fault.isInternal = false) (under : Underway s s' held pushed)
    (peeked : s'.feed.Peeked) : Attempted nt s (.error (s'.error fault) s')

theorem Ends.attempted {nt : Nonterminal} {s : State} {r : EStateM.Result SyntaxError State Bool}
    (ends : Ends nt.trees s r) : Attempted nt s r := by
  cases ends with
  | matched count under => exact .matched count under
  | passed idle =>
    have skipped : ∀ s', Idle s s' → Skipped s s' :=
      fun _ idle => ⟨idle.stack, idle.forest, ⟨[], by simp, idle.tokens.symm⟩, idle.peeked⟩
    exact .passed (skipped _ idle) fun _ => idle.tokens
  | failed ordinary under peeked => exact .failed ordinary under peeked

theorem program_attempted {n : Nat} {s : State} (orderly : Orderly s [])
    (room : s.feed.remaining.length ≤ n) : Attempted .program s (program n s) := by
  have trimmed := trimmedProgram_tidy n
  rcases lineEnd_cases n s with ⟨s1, done, idle⟩ | ⟨feed, dropped, done, some_token, ends, tokens⟩
  · have outcome := trimmed s1 (idle.orderly orderly) (by rwa [idle.remaining])
    have ends : Ends Nonterminal.program.trees s (trimmedProgram n s1) := outcome.idle idle
    rw [program, bind_of_ok done]
    exact ends.attempted
  · have blank : Underway s { s with feed } [] [] := .tokensOnly orderly some_token tokens
    have outcome := trimmed.ends blank (Nat.le_succ_of_le room)
    rw [program, bind_of_ok done]
    generalize trimmedProgram n { s with feed } = result at outcome
    cases outcome with
    | @matched s' pushed count under =>
      have whole : Underway s s' [] (pushed ++ []) := blank.trans under
      rw [List.append_nil] at whole
      exact .matched count whole
    | passed idle =>
      have dropped_only : s.feed.ahead = dropped ++ feed.ahead := tokens
      rw [← idle.tokens] at dropped_only
      refine .passed ⟨idle.stack, idle.forest, ⟨dropped, ends, dropped_only⟩, idle.peeked⟩ ?_
      exact fun other => absurd rfl other
    | failed ordinary under peeked => exact .failed ordinary (blank.trans under) peeked

theorem recognise_attempted (nt : Nonterminal) {s : State} (orderly : Orderly s []) :
    Attempted nt s (recognise nt s) := by
  change Attempted nt s (rule s.bound nt s)
  by_cases program : nt = .program
  · subst program
    exact program_attempted orderly (Nat.le_refl _)
  · exact (rule_tidy s.bound program s orderly (Nat.le_refl _)).attempted

theorem answered_ok {α : Type} {rule : Rule α} {s s' : State} {a : α} (done : rule s = .ok a s')
    (answer : α → Attempt.Answer) : answered rule answer s = (answer a, s') := by
  rw [answered, done]

theorem answered_error {α : Type} {rule : Rule α} {s s' : State} {e : SyntaxError}
    (done : rule s = .error e s') (answer : α → Attempt.Answer) :
    answered rule answer s = (.failed e, s') := by
  rw [answered, done]

theorem orderly_attempt {s : State} (orderly : Orderly s []) (a : Attempt) :
    Orderly (s.attempt a).2 [] := by
  cases a with
  | rule nt =>
    have outcome := recognise_attempted nt orderly
    change Orderly (answered (recognise nt) .matched s).2 []
    generalize came : recognise nt s = result at outcome
    cases outcome with
    | matched count under =>
      rw [answered_ok came]
      exact under.orderly
    | passed skipped =>
      rw [answered_ok came]
      exact orderly.congr skipped.stack skipped.forest
    | failed ordinary under peeked =>
      rw [answered_error came]
      exact under.orderly.released
  | use u => exact orderly.congr rfl rfl
  | compose root children =>
    change Orderly (answered (compose root children) _ s).2 []
    rcases orderly.compose root children with ⟨-, done⟩ | ⟨-, done⟩ | ⟨r, cs, top, done⟩
    · rw [answered_error done]
      exact orderly
    · rw [answered_error done]
      exact orderly
    · rw [answered_ok done]
      exact orderly.composed (List.take_append_drop _ _).symm top

theorem orderly_ofSource (source : String) : Orderly (.ofSource source) [] where
  sound := Forest.sound_empty
  distinct := List.nodup_nil
  roots _ member := nomatch member

theorem orderly_after {s : State} (orderly : Orderly s []) (attempts : List Attempt) :
    Orderly (s.after attempts) [] := by
  induction attempts generalizing s with
  | nil => exact orderly
  | cons a attempts ih => exact ih (orderly_attempt orderly a)

theorem ordinary_message {fault : Fault} (ordinary : fault.isInternal = false) :
    ¬ "internal:".toList <+: fault.message.toList := by
  cases fault with
  | emptyStack | shallowStack | badPositions | refused => cases ordinary
  | wordLineEnd word =>
    intro start
    have message : (Fault.wordLineEnd word).message.toList =
        "No newline found after '".toList ++ word.toList ++ "'".toList := by
      change ("No newline found after '" ++ word ++ "'").toList = _
      rw [String.toList_append, String.toList_append]
    rw [message, List.append_assoc] at start
    have shorter : "internal:".toList.length ≤ "No newline found after '".toList.length := by
      decide +kernel
    have other : ¬ "internal:".toList <+: "No newline found after '".toList := by
      decide +kernel
    exact other (List.prefix_of_prefix_length_le start (List.prefix_append _ _) shorter)
  | _ => decide +kernel

structure WellKept (s : State) : Prop where
  forest : s.forest.Proper
  distinct : s.stack.Nodup
  roots : ∀ h ∈ s.stack, h < s.forest.size ∧ s.forest.parent h = .ok none ∧
    ∃ t, s.forest.tree h = .ok t
  rules : ∀ nt e s', s.attempt (.rule nt) = (.failed e, s') →
    ¬ "internal:".toList <+: e.fault.message.toList
  refusals : ∀ root children e s', s.attempt (.compose root children) = (.failed e, s') →
    s' = s ∧ (e.fault = .shallowStack ∧ s.stack.length < children.length + 1 ∨
      e.fault = .badPositions root children ∧
        ¬ (root :: children).Perm (List.range' 1 (children.length + 1)))

theorem Orderly.wellKept {s : State} (orderly : Orderly s []) : WellKept s := by
  constructor
  · exact orderly.sound.proper
  · exact orderly.distinct
  · intro h member
    have root := orderly.roots h member
    exact ⟨root.inside, Forest.parent_of_root root.inside root.top,
      orderly.sound.exists_tree root.inside⟩
  · intro nt e s' failed
    have outcome := recognise_attempted nt orderly
    change answered (recognise nt) .matched s = _ at failed
    generalize came : recognise nt s = result at outcome
    cases outcome with
    | matched | passed =>
      rw [answered_ok came] at failed
      cases failed
    | failed ordinary =>
      rw [answered_error came] at failed
      cases failed
      exact ordinary_message ordinary
  · intro root children e s' failed
    change answered (Grammar.compose root children) _ s = _ at failed
    rcases orderly.compose root children with ⟨few, done⟩ | ⟨bad, done⟩ | ⟨r, cs, -, done⟩
    · rw [answered_error done] at failed
      cases failed
      exact ⟨rfl, .inl ⟨rfl, few⟩⟩
    · rw [answered_error done] at failed
      cases failed
      exact ⟨rfl, .inr ⟨rfl, bad⟩⟩
    · rw [answered_ok done] at failed
      cases failed

/-- Whatever was tried on whatever text, and however it came out. -/
theorem after_wellKept (source : String) (attempts : List Attempt) :
    WellKept ((State.ofSource source).after attempts) :=
  (orderly_after (orderly_ofSource source) attempts).wellKept

/-- The nodes that were there before have the same values, children and parents. -/
def Keeps (s s' : State) : Prop :=
  ∀ h < s.forest.size, s'.forest.entries[h]? = s.forest.entries[h]?

def Consumes (s s' : State) : Prop :=
  ∃ used, used ≠ [] ∧ s.feed.remaining = used ++ s'.feed.remaining

inductive Disciplined (nt : Nonterminal) (s : State) : Attempt.Answer × State → Prop
  | tree {s' : State} {h : Nat} (phrase : nt ≠ .lineEnd) (consumes : Consumes s s')
    (stack : s'.stack = h :: s.stack)
    (new : ∀ k, s'.forest.Climbs k h → s.forest.size ≤ k ∧ k < s'.forest.size)
    (keeps : Keeps s s') : Disciplined nt s (.matched true, s')
  | lineEnd {s' : State} (blank : nt = .lineEnd) (consumes : Consumes s s')
    (stack : s'.stack = s.stack) (keeps : Keeps s s') : Disciplined nt s (.matched true, s')
  | passed {s' : State} {dropped : List Token} (stack : s'.stack = s.stack)
    (forest : s'.forest = s.forest) (tokens : s.feed.remaining = dropped ++ s'.feed.remaining)
    (blank : ∀ t ∈ dropped, t.kind = .endOfLine) (still : nt ≠ .program → dropped = []) :
    Disciplined nt s (.matched false, s')
  | failed {e : SyntaxError} {s' : State} (stack : s.stack <:+ s'.stack) (keeps : Keeps s s') :
    Disciplined nt s (.failed e, s')

/-- The way up from an old node is an old way. -/
theorem lt_of_climbs {s s' : State} (sound : s.forest.Sound) (keeps : Keeps s s') {k h : Nat}
    (climbs : s'.forest.Climbs k h) (old : k < s.forest.size) : h < s.forest.size := by
  induction climbs with
  | refl => exact old
  | @tail c p _ parent ih =>
    have same : s'.forest.above c = s.forest.above c := by
      unfold Forest.above
      rw [keeps c ih]
    exact sound.parent_lt (same ▸ parent)

theorem Underway.new {s s' : State} {h : Nat} (under : Underway s s' [] [h])
    (sound : s.forest.Sound) (k : Nat) (climbs : s'.forest.Climbs k h) :
    s.forest.size ≤ k ∧ k < s'.forest.size := by
  constructor
  · by_contra old
    have new := under.fresh h (by simp)
    have also_old := lt_of_climbs sound under.kept climbs (Nat.not_le.mp old)
    omega
  · have inside : h < s'.forest.size :=
      (under.orderly.roots h (by simp [under.stack])).inside
    cases Relation.ReflTransGen.cases_head climbs with
    | inl same => exact same ▸ inside
    | inr up =>
      obtain ⟨p, parent, -⟩ := up
      exact Forest.lt_size_of_above parent

theorem remaining_of_ahead {s s' : State} {used : List Lexeme}
    (tokens : s.feed.ahead = used ++ s'.feed.ahead) :
    s.feed.remaining = used.map (·.token) ++ s'.feed.remaining := by
  rw [Feed.remaining, Feed.remaining, tokens, List.map_append]

theorem Underway.consumes {s s' : State} {held pushed : List Nat}
    (under : Underway s s' held pushed) : Consumes s s' := by
  obtain ⟨used, some_token, tokens⟩ := under.tokens
  exact ⟨used.map (·.token), by simpa using some_token, remaining_of_ahead tokens⟩

theorem Attempted.disciplined {nt : Nonterminal} {s : State} (orderly : Orderly s [])
    (outcome : Attempted nt s (recognise nt s)) : Disciplined nt s (s.attempt (.rule nt)) := by
  change Disciplined nt s (answered (recognise nt) .matched s)
  generalize came : recognise nt s = result at outcome
  cases outcome with
  | @matched s' pushed count under =>
    rw [answered_ok came]
    by_cases blank : nt = .lineEnd
    · subst blank
      obtain rfl := List.eq_nil_of_length_eq_zero count
      exact .lineEnd rfl under.consumes under.stack under.kept
    · have one : nt.trees = 1 := by cases nt <;> first | rfl | exact absurd rfl blank
      obtain ⟨h, rfl⟩ := List.length_eq_one_iff.mp (count.trans one)
      exact .tree blank under.consumes under.stack (under.new orderly.sound) under.kept
  | @passed s' skipped still =>
    obtain ⟨dropped, ends, tokens⟩ := skipped.tokens
    rw [answered_ok came]
    refine .passed skipped.stack skipped.forest (remaining_of_ahead tokens) ?_ ?_
    · simpa using ends
    · intro other
      rw [still other] at tokens
      rw [List.self_eq_append_left.mp tokens, List.map_nil]
  | @failed s' fault held pushed ordinary under peeked =>
    rw [answered_error came]
    exact .failed ⟨pushed, under.stack.symm⟩ under.kept

/-- Every rule, tried in any state that can be come by, keeps to the discipline of the stack. -/
theorem rule_disciplined (source : String) (attempts : List Attempt) (nt : Nonterminal) :
    Disciplined nt ((State.ofSource source).after attempts)
      (((State.ofSource source).after attempts).attempt (.rule nt)) := by
  have orderly := orderly_after (orderly_ofSource source) attempts
  exact (recognise_attempted nt orderly).disciplined orderly

end Grammar

end TurtleGraphics
