import Mathlib.Data.List.Forall2
import TurtleGraphics.Proofs.Grammar.Reading

/-!
A reader decides by the tokens it uses up and the one after them. Two token lists that agree that
far are read alike, whatever follows and whatever the bounds, as long as these are large enough.
-/

namespace TurtleGraphics.Phrase

open Grammar (Fault Wanted)

variable {α β : Type}

def Inside (ts : List Token) : Prop :=
  ∀ t ∈ ts, t.kind ≠ .endOfInput

theorem Inside.append {ts us : List Token} (left : Inside ts) (right : Inside us) :
    Inside (ts ++ us) := by
  intro t member
  rcases List.mem_append.mp member with first | second
  · exact left t first
  · exact right t second

structure Settled (missing : Prop) (n' : Nat) (read' : Reader α) (ts used rest : List Token)
    (outcome : List Token → Reading α) : Prop where
  split : ts = used ++ rest
  inside : Inside used
  opens : missing → used ≠ []
  same : ∀ rest', rest'.head? = rest.head? → (used ++ rest').length ≤ n' →
    read' (used ++ rest') = outcome rest'

inductive Outlook (missing : Prop) (n' : Nat) (read' : Reader α) (ts : List Token) :
    Reading α → Prop
  | matched {a : α} {used rest : List Token}
    (settled : Settled missing n' read' ts used rest (.matched a)) :
    Outlook missing n' read' ts (.matched a rest)
  | passed (missed : missing)
    (same : ∀ ts', ts'.head? = ts.head? → ts'.length ≤ n' → read' ts' = .passed) :
    Outlook missing n' read' ts .passed
  | failed {fault : Fault} {used rest : List Token}
    (settled : Settled missing n' read' ts used rest (.failed fault)) :
    Outlook missing n' read' ts (.failed fault rest)

/-- On lists up to these lengths the two readers look one token ahead and go the same way. -/
def Local (missing : Prop) (n n' : Nat) (read read' : Reader α) : Prop :=
  ∀ ts, ts.length ≤ n → Outlook missing n' read' ts (read ts)

abbrev Opening (n n' : Nat) (read read' : Reader α) : Prop :=
  Local True n n' read read'

abbrev Further (n n' : Nat) (read read' : Reader α) : Prop :=
  Local False n n' read read'

variable {missing : Prop} {n n' m m' : Nat} {read read' : Reader α} {ts used rest : List Token}

theorem Outlook.imp {other' : Reader α} {reading : Reading α}
    (outlook : Outlook missing n' read' ts reading)
    (same : ∀ ts, ts.length ≤ m' → ts.length ≤ n' ∧ other' ts = read' ts) :
    Outlook missing m' other' ts reading := by
  have settle {used rest : List Token} {outcome : List Token → Reading α}
      (settled : Settled missing n' read' ts used rest outcome) :
      Settled missing m' other' ts used rest outcome := by
    refine ⟨settled.split, settled.inside, settled.opens, ?_⟩
    intro rest' head room
    rw [(same _ room).2]
    exact settled.same rest' head (same _ room).1
  cases outlook with
  | matched settled => exact .matched (settle settled)
  | passed missed alike =>
    apply Outlook.passed missed
    intro ts' head room
    rw [(same _ room).2]
    exact alike ts' head (same _ room).1
  | failed settled => exact .failed (settle settled)

theorem Local.congr {other other' : Reader α} (lo : Local missing n n' other other')
    (same : ∀ ts, ts.length ≤ n → read ts = other ts)
    (same' : ∀ ts, ts.length ≤ n' → read' ts = other' ts) : Local missing n n' read read' := by
  intro ts room
  rw [same ts room]
  exact (lo ts room).imp fun us room' => ⟨room', same' us room'⟩

theorem Local.mono (lo : Local missing n n' read read') (le : m ≤ n) (le' : m' ≤ n') :
    Local missing m m' read read' :=
  fun ts room => (lo ts (Nat.le_trans room le)).imp fun _ room' => ⟨Nat.le_trans room' le', rfl⟩

/-- With no token to come a larger bound makes no difference. -/
theorem Local.none_left {other' : Reader α} (lo : Local missing n m' read other')
    (same : read' [] = other' []) : Local missing n 0 read read' := by
  apply (lo.mono (Nat.le_refl n) (Nat.zero_le m')).congr (fun _ _ => rfl)
  intro ts room
  rw [List.eq_nil_of_length_eq_zero (Nat.le_zero.mp room), same]

/-- No phrase starts where no token is left. -/
theorem Local.passed_nil (lo : Opening n n' read read') :
    read [] = .passed ∧ read' [] = .passed := by
  have settle {used rest : List Token} {outcome : List Token → Reading α}
      (settled : Settled True n' read' [] used rest outcome) : False :=
    settled.opens trivial (List.append_eq_nil_iff.mp settled.split.symm).1
  have outlook := lo [] (Nat.zero_le n)
  generalize read [] = reading at outlook ⊢
  cases outlook with
  | matched settled => exact (settle settled).elim
  | passed missed same => exact ⟨rfl, same [] rfl (Nat.zero_le n')⟩
  | failed settled => exact (settle settled).elim

/-- What comes after tokens that have been used up. -/
theorem Outlook.after {whole' next' : Reader β} {reading : Reading β}
    (outlook : Outlook False m' next' rest reading) (split : ts = used ++ rest)
    (inside : Inside used) (opens : missing → used ≠ [])
    (leads : ∀ rest', rest'.head? = rest.head? → (used ++ rest').length ≤ n' →
      whole' (used ++ rest') = next' rest')
    (room : n' ≤ m' + used.length) : Outlook missing n' whole' ts reading := by
  have settle {later rest' : List Token} {outcome : List Token → Reading β}
      (settled : Settled False m' next' rest later rest' outcome) :
      Settled missing n' whole' ts (used ++ later) rest' outcome := by
    constructor
    · rw [split, settled.split, List.append_assoc]
    · exact inside.append settled.inside
    · intro missed
      simp [opens missed]
    · intro ahead head short
      rw [List.append_assoc] at short ⊢
      have same_head : (later ++ ahead).head? = rest.head? := by
        rw [settled.split, List.head?_append, List.head?_append, head]
      rw [leads _ same_head short]
      rw [List.length_append] at short
      exact settled.same ahead head (by omega)
  cases outlook with
  | matched settled => exact .matched (settle settled)
  | passed missed => exact missed.elim
  | failed settled => exact .failed (settle settled)

/-- Where a phrase is missing the next token leads on to what is read otherwise. -/
theorem Outlook.otherwise {whole' other' : Reader β} {reading : Reading β}
    (outlook : Outlook missing n' other' ts reading)
    (leads : ∀ ts', ts'.head? = ts.head? → ts'.length ≤ n' → whole' ts' = other' ts') :
    Outlook missing n' whole' ts reading := by
  have settle {used rest : List Token} {outcome : List Token → Reading β}
      (settled : Settled missing n' other' ts used rest outcome) :
      Settled missing n' whole' ts used rest outcome := by
    refine ⟨settled.split, settled.inside, settled.opens, ?_⟩
    intro ahead head room
    have same_head : (used ++ ahead).head? = ts.head? := by
      rw [settled.split, List.head?_append, List.head?_append, head]
    rw [leads _ same_head room]
    exact settled.same ahead head room
  cases outlook with
  | matched settled => exact .matched (settle settled)
  | passed missed same =>
    apply Outlook.passed missed
    intro ts' head room
    rw [leads ts' head room]
    exact same ts' head room
  | failed settled => exact .failed (settle settled)

section Sequence

variable {other other' : Reader β} {next next' : α → Reader β}

theorem Local.andThen (first : Opening n n' read read') (others : Local missing n n' other other')
    (le : n ≤ m + 1) (le' : n' ≤ m' + 1) (further : ∀ a, Further m m' (next a) (next' a)) :
    Local missing n n' (fun ts => (read ts).andThen (other ts) next)
      (fun ts => (read' ts).andThen (other' ts) next') := by
  intro ts room
  have outlook := first ts room
  dsimp only
  generalize read ts = reading at outlook
  cases outlook with
  | @matched a used rest settled =>
    have some_token := List.length_pos_iff.mpr (settled.opens trivial)
    have short := room
    rw [settled.split, List.length_append] at short
    have later := further a rest (by omega)
    apply later.after settled.split settled.inside (fun _ => settled.opens trivial)
    · intro rest' head room'
      rw [settled.same rest' head room']
      rfl
    · omega
  | passed missed same =>
    apply (others ts room).otherwise
    intro ts' head room'
    rw [same ts' head room']
    rfl
  | @failed fault used rest settled =>
    refine .failed ⟨settled.split, settled.inside, fun _ => settled.opens trivial, ?_⟩
    intro rest' head room'
    rw [settled.same rest' head room']
    rfl

/-- What is never missing is followed by the rest of the phrase. -/
theorem Local.thenFurther (first : Further n n' read read')
    (further : ∀ a, Further n n' (next a) (next' a)) :
    Further n n' (fun ts => (read ts).andThen (other ts) next)
      (fun ts => (read' ts).andThen (other' ts) next') := by
  intro ts room
  have outlook := first ts room
  dsimp only
  generalize read ts = reading at outlook
  cases outlook with
  | @matched a used rest settled =>
    have short := room
    rw [settled.split, List.length_append] at short
    have later := further a rest (by omega)
    apply later.after settled.split settled.inside False.elim
    · intro rest' head room'
      rw [settled.same rest' head room']
      rfl
    · exact Nat.le_add_right n' _
  | passed missed same => exact missed.elim
  | @failed fault used rest settled =>
    refine .failed ⟨settled.split, settled.inside, False.elim, ?_⟩
    intro rest' head room'
    rw [settled.same rest' head room']
    rfl

theorem settled_nil {outcome : List Token → Reading α} (same : ∀ ts, read' ts = outcome ts) :
    Settled False n' read' ts [] ts outcome :=
  ⟨rfl, List.forall_mem_nil _, False.elim, fun ahead _ _ => same ahead⟩

theorem passed_local (n n' : Nat) :
    Opening n n' (fun _ => (.passed : Reading α)) (fun _ => .passed) :=
  fun _ _ => .passed trivial fun _ _ _ => rfl

theorem matched_local (a : α) (n n' : Nat) : Further n n' (Reading.matched a) (.matched a) :=
  fun _ _ => .matched (settled_nil fun _ => rfl)

theorem failed_local (fault : Fault) (n n' : Nat) :
    Further n n' (fun ts => (.failed fault ts : Reading α)) (.failed fault) :=
  fun _ _ => .failed (settled_nil fun _ => rfl)

end Sequence

/-- A phrase that has to be there, and what has to follow it. -/
theorem Local.expect {next next' : α → Reader β} (first : Opening n n' read read') {fault : Fault}
    (further : ∀ a, Further n n' (next a) (next' a)) :
    Further n n' (fun ts => (read ts).andThen (.failed fault ts) next)
      (fun ts => (read' ts).andThen (.failed fault ts) next') :=
  first.andThen (failed_local fault n n') (Nat.le_succ n) (Nat.le_succ n') further

/-- A phrase that starts with another one. -/
theorem Local.first {next next' : α → Reader β} (first : Opening n n' read read')
    (further : ∀ a, Further n n' (next a) (next' a)) :
    Opening n n' (fun ts => (read ts).andThen .passed next)
      (fun ts => (read' ts).andThen .passed next') :=
  first.andThen (passed_local n n') (Nat.le_succ n) (Nat.le_succ n') further

/-- What follows the first token has one token less to come. -/
theorem Local.starts {next next' : α → Reader β} (first : Opening (n + 1) (n' + 1) read read')
    (further : ∀ a, Further n n' (next a) (next' a)) :
    Opening (n + 1) (n' + 1) (fun ts => (read ts).andThen .passed next)
      (fun ts => (read' ts).andThen .passed next') :=
  first.andThen (passed_local _ _) (Nat.le_refl _) (Nat.le_refl _) further

theorem Local.map (lo : Further n n' read read') (f : α → β) :
    Further n n' (fun ts => (read ts).map f) (fun ts => (read' ts).map f) :=
  lo.thenFurther fun a => matched_local (f a) n n'

theorem Local.mapOpening (lo : Opening n n' read read') (f : α → β) :
    Opening n n' (fun ts => (read ts).map f) (fun ts => (read' ts).map f) :=
  lo.first fun a => matched_local (f a) n n'

theorem take_local {w : Wanted} {f : Token → α} (other : w.kind ≠ .endOfInput) (n n' : Nat) :
    Opening n n' (take w f) (take w f) := by
  intro ts _
  cases ts with
  | nil =>
    apply Outlook.passed trivial
    intro ts' head _
    rw [List.head?_eq_none_iff.mp head]
    rfl
  | cons t ts =>
    by_cases wanted : w.accepts t = true
    · have kind : t.kind = w.kind := by
        simp only [Wanted.accepts, Bool.and_eq_true, beq_iff_eq] at wanted
        exact wanted.1
      have inside : Inside [t] := List.forall_mem_singleton.mpr (kind ▸ other)
      have settled : Settled True n' (take w f) (t :: ts) [t] ts (.matched (f t)) := by
        refine ⟨rfl, inside, fun _ => List.cons_ne_nil t [], ?_⟩
        intro rest' _ _
        rw [List.singleton_append, take, if_pos wanted]
      rw [take, if_pos wanted]
      exact .matched settled
    · rw [take, if_neg wanted]
      apply Outlook.passed trivial
      intro ts' head _
      obtain ⟨others, rfl⟩ := List.head?_eq_some_iff.mp head
      rw [take, if_neg wanted]

theorem word_local (text : String) (a : α) (n n' : Nat) :
    Opening n n' (takeWord text a) (takeWord text a) :=
  take_local Token.Kind.noConfusion n n'

theorem mark_local (text : String) (a : α) (n n' : Nat) :
    Opening n n' (takeMark text a) (takeMark text a) :=
  take_local Token.Kind.noConfusion n n'

theorem name_local (n n' : Nat) : Opening n n' takeName takeName :=
  take_local Token.Kind.noConfusion n n'

theorem either_local {readers readers' : List (Reader α)}
    (each : List.Forall₂ (Opening n n') readers readers') :
    Opening n n' (either readers) (either readers') := by
  induction each with
  | nil => exact passed_local n n'
  | cons first _ ih =>
    apply (first.andThen ih (Nat.le_succ n) (Nat.le_succ n') fun a => matched_local a n n').congr
    · exact fun ts _ => either_cons ..
    · exact fun ts _ => either_cons ..

/-- A loop whose rounds start with a phrase that may be missing. Its bound is at least the number of
tokens to come, so it never stops for the bound alone. -/
def Loops (nil : β) (read : Reader α) (round : α → Reader β → Reader β) (loop : Nat → Reader β) :
    Prop :=
  ∀ k ts, ts.length ≤ k → loop k ts = (read ts).andThen (.matched nil ts) fun a =>
    round a (loop (k - 1))

theorem Loops.further {nil : β} {round round' : α → Reader β → Reader β}
    {loop loop' : Nat → Reader β} (loops : Loops nil read round loop)
    (loops' : Loops nil read' round' loop')
    (lo : Opening n n' read read')
    (step : ∀ a m m' q q', m ≤ n → m' ≤ n' → Further m m' q q' →
      Further m m' (round a q) (round' a q'))
    (k k' : Nat) (le : m ≤ k) (le' : m' ≤ k') (small : m ≤ n) (small' : m' ≤ n') :
    Further m m' (loop k) (loop' k') := by
  obtain ⟨nothing, nothing'⟩ := lo.passed_nil
  induction k generalizing m m' k' with
  | zero =>
    intro ts room
    obtain rfl := List.eq_nil_of_length_eq_zero (Nat.le_zero.mp (Nat.le_trans room le))
    rw [loops 0 [] (Nat.le_refl _), nothing]
    refine .matched ⟨rfl, List.forall_mem_nil _, False.elim, ?_⟩
    intro rest' head room'
    obtain rfl := List.head?_eq_none_iff.mp head
    rw [List.append_nil, loops' k' [] (Nat.zero_le k'), nothing']
    rfl
  | succ k ih =>
    have rounds (a : α) : Further (m - 1) (m' - 1) (round a (loop k)) (round' a (loop' (k' - 1))) :=
      step a _ _ _ _ (by omega) (by omega)
        (ih (k' - 1) (by omega) (by omega) (by omega) (by omega))
    have stops := matched_local nil m m'
    have whole := (lo.mono small small').andThen stops (by omega) (by omega) rounds
    apply whole.congr
    · exact fun ts room => loops (k + 1) ts (by omega)
    · exact fun ts room => loops' k' ts (by omega)

theorem Loops.of_steps {nil : β} {round : α → Reader β → Reader β} {loop : Nat → Reader β}
    (nothing : read [] = .passed) (zero : loop 0 [] = .matched nil [])
    (succ : ∀ k ts, loop (k + 1) ts = (read ts).andThen (.matched nil ts) fun a =>
      round a (loop k)) : Loops nil read round loop := by
  intro k ts room
  cases k with
  | zero =>
    rw [List.eq_nil_of_length_eq_zero (Nat.le_zero.mp room), nothing]
    exact zero
  | succ k => exact succ k ts

theorem many_local (lo : Opening n n' read read') {k k' : Nat} (le : n ≤ k) (le' : n' ≤ k') :
    Further n n' (many read k) (many read' k') := by
  obtain ⟨nothing, nothing'⟩ := lo.passed_nil
  have loops {read : Reader α} (nothing : read [] = .passed) :
      Loops [] read (fun a q ts => (q ts).map (a :: ·)) (many read) :=
    .of_steps nothing rfl fun _ _ => rfl
  apply (loops nothing).further (loops nothing') lo _ k k' le le' (Nat.le_refl n) (Nat.le_refl n')
  exact fun a m m' q q' _ _ others => others.map (a :: ·)

theorem addOperator_local (n n' : Nat) : Opening n n' AddOperator.read AddOperator.read :=
  either_local (.cons (mark_local _ _ n n') (.cons (mark_local _ _ n n') .nil))

theorem multiplyOperator_local (n n' : Nat) :
    Opening n n' MultiplyOperator.read MultiplyOperator.read :=
  either_local (.cons (mark_local _ _ n n') (.cons (mark_local _ _ n n') .nil))

theorem comparator_local (n n' : Nat) : Opening n n' Comparator.read Comparator.read :=
  either_local (.cons (mark_local _ _ n n') (.cons (mark_local _ _ n n')
    (.cons (mark_local _ _ n n') .nil)))

section Expressions

variable {inner inner' : Reader Expression}

theorem factor_local (lo : Opening n n' inner inner') :
    Opening (n + 1) (n' + 1) (Factor.read inner) (Factor.read inner') := by
  have plain : Opening (n + 1) (n' + 1) Factor.readPlain Factor.readPlain :=
    either_local (.cons (take_local Token.Kind.noConfusion _ _)
      (.cons (take_local Token.Kind.noConfusion _ _)
        (.cons (word_local _ _ _ _) (.cons (word_local _ _ _ _) .nil))))
  have parens : Opening (n + 1) (n' + 1) (Factor.readParens inner) (Factor.readParens inner') := by
    apply (mark_local "(" () (n + 1) (n' + 1)).starts
    intro _
    apply lo.expect
    intro e
    apply (mark_local ")" () n n').expect
    intro _
    exact matched_local _ n n'
  exact either_local (.cons plain (.cons parens .nil))

theorem factors_local (lo : Opening n n' inner inner') {k k' : Nat} (le : n ≤ k) (le' : n' ≤ k') :
    Further n n' (Factors.read inner k) (Factors.read inner' k') := by
  have loops (inner : Reader Expression) : Loops .nil MultiplyOperator.read (fun op q ts =>
      (Factor.read inner ts).andThen (.failed .multiplier ts) fun u ts => (q ts).map (.cons op u))
      (Factors.read inner) :=
    .of_steps rfl rfl fun _ _ => rfl
  apply (loops inner).further (loops inner') (multiplyOperator_local n n') _ k k' le le'
    (Nat.le_refl n) (Nat.le_refl n')
  intro op m m' q q' small small' others
  apply ((factor_local lo).mono (Nat.le_succ_of_le small) (Nat.le_succ_of_le small')).expect
  intro u
  exact others.map (Factors.cons op u)

theorem plainTerm_local (lo : Opening n n' inner inner') {k k' : Nat} (le : n ≤ k) (le' : n' ≤ k') :
    Opening (n + 1) (n' + 1) (readPlainTerm inner k) (readPlainTerm inner' k') := by
  apply (factor_local lo).starts
  intro u
  exact (factors_local lo le le').map (u, ·)

theorem addends_local (lo : Opening n n' inner inner') {m m' k k' : Nat} (le : n ≤ k)
    (le' : n' ≤ k') (room : n ≤ m) (room' : n' ≤ m') :
    Further n n' (Addends.read inner m k) (Addends.read inner' m' k') := by
  have loops (inner : Reader Expression) (m : Nat) : Loops .nil AddOperator.read (fun op q ts =>
      (readPlainTerm inner m ts).andThen (.failed .addend ts) fun term ts =>
        (q ts).map (.cons op term.1 term.2)) (Addends.read inner m) :=
    .of_steps rfl rfl fun _ _ => rfl
  apply (loops inner m).further (loops inner' m') (addOperator_local n n') _ k k' le le'
    (Nat.le_refl n) (Nat.le_refl n')
  intro op b b' q q' small small' others
  have terms := plainTerm_local lo room room'
  apply (terms.mono (Nat.le_succ_of_le small) (Nat.le_succ_of_le small')).expect
  intro term
  exact others.map (Addends.cons op term.1 term.2)

theorem signed_local (lo : Opening n n' inner inner') :
    Opening (n + 1) (n' + 1) (readSigned inner) (readSigned inner') := by
  have factors := factor_local lo
  have unsigned := factors.mapOpening fun u => ((none : Option AddOperator), u)
  apply (addOperator_local (n + 1) (n' + 1)).andThen unsigned (Nat.le_succ _) (Nat.le_succ _)
  intro op
  apply factors.expect
  intro u
  exact matched_local _ _ _

theorem term_local (lo : Opening n n' inner inner') :
    Opening (n + 1) (n' + 1) (readTerm inner n) (readTerm inner' n') := by
  apply (signed_local lo).starts
  intro first
  exact (factors_local lo (Nat.le_refl n) (Nat.le_refl n')).map (first, ·)

theorem expressionWith_local (lo : Opening n n' inner inner') :
    Opening (n + 1) (n' + 1) (Expression.readWith inner n) (Expression.readWith inner' n') := by
  apply (term_local lo).starts
  intro term
  apply (addends_local lo _ _ _ _).map <;> exact Nat.le_refl _

end Expressions

/-- A reader that goes one level deeper with each token is local if one level is. -/
theorem local_of_step {read : Nat → Reader α} (nothing : ∀ n, read n [] = .passed)
    (step : ∀ n n', Opening n n' (read n) (read n') →
      Opening (n + 1) (n' + 1) (read (n + 1)) (read (n' + 1))) (n n' : Nat) :
    Opening n n' (read n) (read n') := by
  induction n generalizing n' with
  | zero =>
    intro ts room
    obtain rfl := List.eq_nil_of_length_eq_zero (Nat.le_zero.mp room)
    rw [nothing]
    apply Outlook.passed trivial
    intro ts' head _
    rw [List.head?_eq_none_iff.mp head]
    exact nothing n'
  | succ n ih =>
    cases n' with
    | zero =>
      have same : read 0 [] = read 1 [] := (nothing 0).trans (nothing 1).symm
      exact (step n 0 (ih 0)).none_left same
    | succ n' => exact step n n' (ih n')

theorem expression_local (n n' : Nat) : Opening n n' (Expression.read n) (Expression.read n') := by
  have nothing (n : Nat) : Expression.read n [] = .passed := by
    cases n <;> rfl
  exact local_of_step nothing (fun _ _ => expressionWith_local) n n'

theorem condition_local (n n' : Nat) : Opening n n' (Condition.read n) (Condition.read n') := by
  apply (expression_local n n').first
  intro left
  apply (comparator_local n n').expect
  intro op
  apply (expression_local n n').expect
  intro right
  exact matched_local _ n n'

theorem lineEnd_local (n n' : Nat) : Opening n n' (LineEnd.read n) (LineEnd.read n') := by
  have ends : Opening n n' takeEndOfLine takeEndOfLine := take_local Token.Kind.noConfusion n n'
  apply ends.first
  intro first
  exact (many_local ends (Nat.le_refl n) (Nat.le_refl n')).map (LineEnd.mk first)

theorem closed_local (fault : Fault) (f : LineEnd → α) (n n' : Nat) :
    Further n n' (closed n fault f) (closed n' fault f) := by
  apply (lineEnd_local n n').expect
  intro close
  exact matched_local _ n n'

theorem shade_local (n n' : Nat) : Opening n n' (Shade.read n) (Shade.read n') := by
  have named : Opening n n' Shade.readNamed Shade.readNamed := by
    apply either_local
    rw [List.forall₂_map_left_iff, List.forall₂_map_right_iff, List.forall₂_same]
    exact fun c _ => word_local _ _ n n'
  have mixed : Opening n n' (Shade.readMixed n) (Shade.readMixed n') := by
    apply (word_local "color" () n n').first
    intro _
    apply (expression_local n n').expect
    intro red
    apply (expression_local n n').expect
    intro green
    apply (expression_local n n').expect
    intro blue
    exact matched_local _ n n'
  exact either_local (.cons named (.cons mixed .nil))

theorem move_local (n n' : Nat) : Opening n n' (Command.readMove n) (Command.readMove n') := by
  have heads : Opening n n' (either [takeWord "forward" Move.forward, takeWord "right" .right,
      takeWord "left" .left, takeWord "face" .face]) (either [takeWord "forward" Move.forward,
      takeWord "right" .right, takeWord "left" .left, takeWord "face" .face]) :=
    either_local (.cons (word_local _ _ n n') (.cons (word_local _ _ n n')
      (.cons (word_local _ _ n n') (.cons (word_local _ _ n n') .nil))))
  apply heads.first
  intro m
  apply (expression_local n n').expect
  intro e
  exact closed_local _ _ n n'

theorem bare_local (b : Bare) (n n' : Nat) :
    Opening n n' (Command.readBare b n) (Command.readBare b n') := by
  apply (word_local b.text () n n').first
  intro _
  exact closed_local _ _ n n'

theorem jump_local (n n' : Nat) : Opening n n' (Command.readJump n) (Command.readJump n') := by
  apply (word_local "jump" () n n').first
  intro _
  apply (expression_local n n').expect
  intro x
  apply (expression_local n n').expect
  intro y
  exact closed_local _ _ n n'

theorem assign_local (n n' : Nat) :
    Opening n n' (Command.readAssign n) (Command.readAssign n') := by
  apply (word_local "set" () n n').first
  intro _
  apply (name_local n n').expect
  intro name
  apply (expression_local n n').expect
  intro e
  exact closed_local _ _ n n'

theorem call_local (n n' : Nat) : Opening n n' (Command.readCall n) (Command.readCall n') := by
  apply (word_local "do" () n n').first
  intro _
  apply (name_local n n').expect
  intro name
  apply (many_local (expression_local n n') (Nat.le_refl n) (Nat.le_refl n')).thenFurther
  intro arguments
  exact closed_local _ _ n n'

theorem color_local (n n' : Nat) : Opening n n' (Command.readColor n) (Command.readColor n') := by
  apply (shade_local n n').first
  intro shade
  exact closed_local _ _ n n'

section Blocks

variable {block block' : Reader Block}

theorem times_local (lo : Opening n n' block block') :
    Opening (n + 1) (n' + 1) (Command.readTimes block (n + 1))
      (Command.readTimes block' (n' + 1)) := by
  apply (word_local "repeat" () (n + 1) (n' + 1)).starts
  intro _
  apply ((expression_local (n + 1) (n' + 1)).mono (Nat.le_succ n) (Nat.le_succ n')).expect
  intro e
  apply lo.expect
  intro body
  exact matched_local _ n n'

theorem loop_local (lo : Opening n n' block block') :
    Opening (n + 1) (n' + 1) (Command.readLoop block (n + 1))
      (Command.readLoop block' (n' + 1)) := by
  apply (word_local "while" () (n + 1) (n' + 1)).starts
  intro _
  apply ((condition_local (n + 1) (n' + 1)).mono (Nat.le_succ n) (Nat.le_succ n')).expect
  intro c
  apply lo.expect
  intro body
  exact matched_local _ n n'

theorem branch_local (lo : Opening n n' block block') :
    Opening (n + 1) (n' + 1) (Command.readBranch block (n + 1))
      (Command.readBranch block' (n' + 1)) := by
  apply (word_local "if" () (n + 1) (n' + 1)).starts
  intro _
  apply ((condition_local (n + 1) (n' + 1)).mono (Nat.le_succ n) (Nat.le_succ n')).expect
  intro c
  apply lo.expect
  intro body
  apply (word_local "else" () n n').andThen (matched_local _ n n') (Nat.le_succ n) (Nat.le_succ n')
  intro _
  apply lo.expect
  intro otherwise
  exact matched_local _ n n'

theorem commandWith_local (lo : Opening n n' block block') :
    Opening (n + 1) (n' + 1) (Command.readWith block (n + 1))
      (Command.readWith block' (n' + 1)) := by
  have worded : Opening (n + 1) (n' + 1) (Command.readWorded block (n + 1))
      (Command.readWorded block' (n' + 1)) :=
    either_local (.cons (move_local _ _) (.cons (bare_local _ _ _) (.cons (bare_local _ _ _)
      (.cons (bare_local _ _ _) (.cons (jump_local _ _) (.cons (assign_local _ _)
        (.cons (times_local lo) (.cons (loop_local lo) (.cons (branch_local lo)
          (.cons (call_local _ _) .nil))))))))))
  exact either_local (.cons worded (.cons (color_local _ _) .nil))

theorem blockOf_local {command command' : Reader Command} (lo : Opening n n' command command') :
    Opening n n' (Block.readOf command n) (Block.readOf command' n') := by
  apply (mark_local "\x7b" () n n').first
  intro _
  apply (lineEnd_local n n').expect
  intro opening
  apply (many_local lo (Nat.le_refl n) (Nat.le_refl n')).thenFurther
  intro commands
  apply (mark_local "\x7d" () n n').expect
  intro _
  exact closed_local _ _ n n'

end Blocks

theorem command_local (n n' : Nat) : Opening n n' (Command.read n) (Command.read n') := by
  have nothing (n : Nat) : Command.read n [] = .passed := by
    cases n <;> rfl
  exact local_of_step nothing (fun _ _ lo => commandWith_local (blockOf_local lo)) n n'

theorem procedure_local (n n' : Nat) : Opening n n' (Procedure.read n) (Procedure.read n') := by
  apply (word_local "def" () n n').first
  intro _
  apply (name_local n n').expect
  intro name
  apply (many_local (name_local n n') (Nat.le_refl n) (Nat.le_refl n')).thenFurther
  intro parameters
  apply (blockOf_local (command_local n n')).expect
  intro body
  exact matched_local _ n n'

end TurtleGraphics.Phrase
