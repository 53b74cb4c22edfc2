import TurtleGraphics.Proofs.Grammar.Place
import TurtleGraphics.Proofs.Grammar.Lookahead
import TurtleGraphics.Proofs.Grammar.Sound.Command

/-!
What has been read when a fault is found begins a phrase. A few tokens complete it: parts that are
missing are made up from the simplest phrases of their kind.
-/

namespace TurtleGraphics.Phrase

open Grammar (Fault)

def fillers : List Token :=
  [naming "x", mark ")", mark "<", mark "\x7b", mark "\x7d", endOfLine "\n", word "home",
    word "def"]

theorem legible_fillers : AllLegible fillers := by
  intro t member
  have read : (Lexeme.ofSource keywords "x)<\x7b\x7d\nhome def").map (·.token) =
      fillers ++ [Token.theEnd] := by
    decide +kernel
  have inside : t ∈ (Lexeme.ofSource keywords "x)<\x7b\x7d\nhome def").map (·.token) := by
    rw [read]
    exact List.mem_append_left _ member
  rcases Token.legible_of_mem_ofSource inside with rfl | legible
  · exact absurd member (by decide)
  · exact legible

theorem legible_of_fillers {ts : List Token} (each : ts.all (fillers.contains ·) = true) :
    AllLegible ts := by
  intro t member
  have inside := List.all_eq_true.mp each t member
  exact legible_fillers t (List.contains_iff_mem.mp inside)

def LineEnd.simple : LineEnd :=
  ⟨"\n", []⟩

def Expression.simple : Expression :=
  .signed none (.name "x") .nil .nil

def Condition.simple : Condition :=
  ⟨.simple, .less, .simple⟩

def Block.simple : Block :=
  .braces .simple .nil .simple

def Command.simple : Command :=
  .bare .home .simple

def Procedure.simple : Procedure :=
  ⟨"x", [], .simple⟩

/-- Tokens that go like a list up to a point, and then on with legible ones. -/
def Cut (ts rest us : List Token) : Prop :=
  ∃ used tail, ts = used ++ rest ∧ us = used ++ tail ∧ AllLegible tail

variable {ts rest us vs : List Token}

theorem Cut.here (legible : us.all (fillers.contains ·) = true) : Cut ts ts us :=
  ⟨[], us, rfl, rfl, legible_of_fillers legible⟩

theorem Cut.after (cut : Cut ts rest us) (before : List Token) :
    Cut (before ++ ts) rest (before ++ us) := by
  obtain ⟨used, tail, rfl, rfl, legible⟩ := cut
  exact ⟨before ++ used, tail, by simp, by simp, legible⟩

theorem Cut.cons (cut : Cut ts rest us) (t : Token) : Cut (t :: ts) rest (t :: us) :=
  cut.after [t]

theorem Cut.append (cut : Cut ts rest us) (legible : vs.all (fillers.contains ·) = true) :
    Cut ts rest (us ++ vs) := by
  obtain ⟨used, tail, rfl, rfl, others⟩ := cut
  exact ⟨used, tail ++ vs, rfl, by simp,
    allLegible_append.mpr ⟨others, legible_of_fillers legible⟩⟩

variable {α β : Type}

def Silent (read : Reader α) : Prop :=
  ∀ ts fault rest, read ts ≠ .failed fault rest

/-- Where the reader finds a fault, some tokens complete a phrase. -/
def Viable (tokens : α → List Token) (read : Reader α) : Prop :=
  ∀ ts fault rest, read ts = .failed fault rest → ∃ a, Cut ts rest (tokens a)

def ViableUpTo (bound : Nat) (tokens : α → List Token) (longest : α → Prop) (read : Reader α) :
    Prop :=
  ∀ ts fault rest, ts.length ≤ bound → read ts = .failed fault rest →
    ∃ a, longest a ∧ Cut ts rest (tokens a)

variable {fault missing : Fault} {read : Reader α} {next : α → List Token → Reading β}

theorem Reading.andThen_eq_failed {r : Reading α} {otherwise : Reading β}
    (h : r.andThen otherwise next = .failed fault rest) :
    r = .failed fault rest ∨ (r = .passed ∧ otherwise = .failed fault rest) ∨
      ∃ a us, r = .matched a us ∧ next a us = .failed fault rest := by
  cases r with
  | matched a us => exact .inr (.inr ⟨a, us, rfl, h⟩)
  | passed => exact .inr (.inl ⟨rfl, h⟩)
  | failed other us =>
    cases h
    exact .inl rfl

theorem Reading.map_eq_failed {r : Reading α} {f : α → β} (h : r.map f = .failed fault rest) :
    r = .failed fault rest := by
  cases r with
  | matched | passed => cases h
  | failed other us =>
    cases h
    rfl

/-- A phrase starts here, and the fault is in it or after it. -/
theorem started (h : (read ts).andThen .passed next = .failed fault rest) :
    read ts = .failed fault rest ∨
      ∃ a us, read ts = .matched a us ∧ next a us = .failed fault rest := by
  rcases Reading.andThen_eq_failed h with inside | ⟨-, none⟩ | later
  · exact .inl inside
  · cases none
  · exact .inr later

theorem Silent.started (silent : Silent read)
    (h : (read ts).andThen .passed next = .failed fault rest) :
    ∃ a us, read ts = .matched a us ∧ next a us = .failed fault rest := by
  rcases Phrase.started h with inside | later
  · exact absurd inside (silent _ _ _)
  · exact later

/-- A part that has to be there is missing, or the fault comes later. -/
theorem Silent.expected (silent : Silent read)
    (h : (read ts).andThen (.failed missing ts) next = .failed fault rest) :
    rest = ts ∨ ∃ a us, read ts = .matched a us ∧ next a us = .failed fault rest := by
  rcases Reading.andThen_eq_failed h with inside | ⟨-, none⟩ | later
  · exact absurd inside (silent _ _ _)
  · cases none
    exact .inl rfl
  · exact .inr later

variable {tokens : α → List Token} {longest : α → Prop} {bound : Nat}

/-- A part that has to be there is missing or faulty, or the fault comes later. -/
theorem Viable.expected (viable : Viable tokens read) {a : α}
    (legible : (tokens a).all (fillers.contains ·) = true)
    (h : (read ts).andThen (.failed missing ts) next = .failed fault rest) :
    (∃ a, Cut ts rest (tokens a)) ∨
      ∃ a us, read ts = .matched a us ∧ next a us = .failed fault rest := by
  rcases Reading.andThen_eq_failed h with inside | ⟨-, none⟩ | later
  · exact .inl (viable _ _ _ inside)
  · cases none
    exact .inl ⟨a, .here legible⟩
  · exact .inr later

theorem ViableUpTo.expected (viable : ViableUpTo bound tokens longest read)
    (room : ts.length ≤ bound) {a : α} (good : longest a)
    (legible : (tokens a).all (fillers.contains ·) = true)
    (h : (read ts).andThen (.failed missing ts) next = .failed fault rest) :
    (∃ a, longest a ∧ Cut ts rest (tokens a)) ∨
      ∃ a us, read ts = .matched a us ∧ next a us = .failed fault rest := by
  rcases Reading.andThen_eq_failed h with inside | ⟨-, none⟩ | later
  · exact .inl (viable _ _ _ room inside)
  · cases none
    exact .inl ⟨a, good, .here legible⟩
  · exact .inr later

theorem take_silent (w : Grammar.Wanted) (f : Token → α) : Silent (take w f) := by
  intro ts fault rest h
  cases ts with
  | nil => cases h
  | cons t ts =>
    rw [take] at h
    split at h <;> cases h

theorem either_eq_failed {readers : List (Reader α)}
    (h : either readers ts = .failed fault rest) : ∃ r ∈ readers, r ts = .failed fault rest := by
  induction readers with
  | nil => cases h
  | cons r readers ih =>
    rw [either_cons] at h
    rcases Reading.andThen_eq_failed h with inside | ⟨-, later⟩ | ⟨a, us, -, same⟩
    · exact ⟨r, by simp, inside⟩
    · obtain ⟨q, member, read⟩ := ih later
      exact ⟨q, by simp [member], read⟩
    · cases same

theorem either_silent {readers : List (Reader α)} (each : ∀ r ∈ readers, Silent r) :
    Silent (either readers) := by
  intro ts fault rest h
  obtain ⟨r, member, inside⟩ := either_eq_failed h
  exact each r member _ _ _ inside

theorem either_viable {readers : List (Reader α)}
    (each : ∀ r ∈ readers, ViableUpTo bound tokens longest r) :
    ViableUpTo bound tokens longest (either readers) := by
  intro ts fault rest room h
  obtain ⟨r, member, inside⟩ := either_eq_failed h
  exact each r member _ _ _ room inside

theorem many_silent (silent : Silent read) (n : Nat) : Silent (many read n) := by
  induction n with
  | zero =>
    intro ts fault rest h
    cases h
  | succ n ih =>
    intro ts fault rest h
    rcases Reading.andThen_eq_failed h with inside | ⟨-, none⟩ | ⟨a, us, -, later⟩
    · exact silent _ _ _ inside
    · cases none
    · exact ih _ _ _ (Reading.map_eq_failed later)

theorem many_viable (viable : ViableUpTo bound tokens longest read)
    (careful : Careful bound tokens longest read) (n : Nat) :
    ViableUpTo bound (·.flatMap tokens) (∀ a ∈ ·, longest a) (many read n) := by
  induction n with
  | zero =>
    intro ts fault rest _ h
    cases h
  | succ n ih =>
    intro ts fault rest room h
    rcases Reading.andThen_eq_failed h with inside | ⟨-, none⟩ | ⟨a, us, first, later⟩
    · obtain ⟨a, good, cut⟩ := viable _ _ _ room inside
      exact ⟨[a], by simpa using good, by simpa using cut⟩
    · cases none
    · obtain ⟨rfl, good⟩ := careful _ _ _ room first
      rw [List.length_append] at room
      obtain ⟨as, goods, cut⟩ := ih _ _ _ (by omega) (Reading.map_eq_failed later)
      exact ⟨a :: as, List.forall_mem_cons.mpr ⟨good, goods⟩, cut.after (tokens a)⟩

theorem addOperator_silent : Silent AddOperator.read := by
  apply either_silent
  simp only [List.forall_mem_cons]
  exact ⟨take_silent _ _, take_silent _ _, by simp⟩

theorem multiplyOperator_silent : Silent MultiplyOperator.read := by
  apply either_silent
  simp only [List.forall_mem_cons]
  exact ⟨take_silent _ _, take_silent _ _, by simp⟩

theorem comparator_silent : Silent Comparator.read := by
  apply either_silent
  simp only [List.forall_mem_cons]
  exact ⟨take_silent _ _, take_silent _ _, take_silent _ _, by simp⟩

section Expressions

variable {inner : Reader Expression}

theorem factor_viable (viable : Viable Expression.tokens inner)
    (sound : Sound Expression.tokens inner) : Viable Factor.tokens (Factor.read inner) := by
  have plain : Silent Factor.readPlain := by
    apply either_silent
    simp only [List.forall_mem_cons]
    exact ⟨take_silent _ _, take_silent _ _, take_silent _ _, take_silent _ _, by simp⟩
  intro ts fault rest h
  obtain ⟨r, member, h⟩ := either_eq_failed h
  simp only [List.mem_cons, List.not_mem_nil, or_false] at member
  rcases member with rfl | rfl
  · exact absurd h (plain _ _ _)
  obtain ⟨_, ts1, opened, h⟩ := (take_silent _ _).started h
  rw [(takeMark_eq_matched opened).1]
  rcases viable.expected (a := .simple) rfl h with ⟨e, cut⟩ | ⟨e, ts2, read, h⟩
  · exact ⟨.parens e, (cut.append rfl).cons _⟩
  rw [sound _ _ _ read]
  rcases (take_silent _ _).expected h with rfl | ⟨_, ts3, _, h⟩
  · exact ⟨.parens e, ((Cut.here rfl).after e.tokens).cons _⟩
  · cases h

theorem factors_viable (viable : Viable Expression.tokens inner)
    (sound : Sound Expression.tokens inner) (n : Nat) :
    Viable Factors.tokens (Factors.read inner n) := by
  have factors := factor_viable viable sound
  induction n with
  | zero =>
    intro ts fault rest h
    cases h
  | succ n ih =>
    intro ts fault rest h
    rcases Reading.andThen_eq_failed h with inside | ⟨-, none⟩ | ⟨op, ts1, first, h⟩
    · exact absurd inside (multiplyOperator_silent _ _ _)
    · cases none
    rw [multiplyOperator_sound _ _ _ first]
    rcases factors.expected (a := .name "x") rfl h with ⟨u, cut⟩ | ⟨u, ts2, second, h⟩
    · exact ⟨.cons op u .nil, (cut.append rfl).cons _⟩
    rw [factor_sound sound _ _ _ second]
    obtain ⟨more, cut⟩ := ih _ _ _ (Reading.map_eq_failed h)
    exact ⟨.cons op u more, (cut.after u.tokens).cons _⟩

theorem plainTerm_viable (viable : Viable Expression.tokens inner)
    (sound : Sound Expression.tokens inner) (n : Nat) :
    Viable (fun term => term.1.tokens ++ term.2.tokens) (readPlainTerm inner n) := by
  intro ts fault rest h
  rcases started h with inside | ⟨u, ts1, first, h⟩
  · obtain ⟨u, cut⟩ := factor_viable viable sound _ _ _ inside
    exact ⟨(u, .nil), cut.append rfl⟩
  · rw [factor_sound sound _ _ _ first]
    obtain ⟨more, cut⟩ := factors_viable viable sound n _ _ _ (Reading.map_eq_failed h)
    exact ⟨(u, more), cut.after u.tokens⟩

theorem addends_viable (viable : Viable Expression.tokens inner)
    (sound : Sound Expression.tokens inner) (m n : Nat) :
    Viable Addends.tokens (Addends.read inner m n) := by
  have terms := plainTerm_viable viable sound m
  induction n with
  | zero =>
    intro ts fault rest h
    cases h
  | succ n ih =>
    intro ts fault rest h
    rcases Reading.andThen_eq_failed h with inside | ⟨-, none⟩ | ⟨op, ts1, first, h⟩
    · exact absurd inside (addOperator_silent _ _ _)
    · cases none
    rw [addOperator_sound _ _ _ first]
    rcases terms.expected (a := (.name "x", .nil)) rfl h with
      ⟨term, cut⟩ | ⟨term, ts2, second, h⟩
    · have more : Cut ts1 rest (term.1.tokens ++ (term.2.tokens ++ [])) := by
        simpa using cut
      exact ⟨.cons op term.1 term.2 .nil, more.cons _⟩
    rw [plainTerm_sound sound m _ _ _ second]
    obtain ⟨further, cut⟩ := ih _ _ _ (Reading.map_eq_failed h)
    refine ⟨.cons op term.1 term.2 further, ?_⟩
    simpa [Addends.tokens] using (cut.after (term.1.tokens ++ term.2.tokens)).cons (mark op.text)

theorem signed_viable (viable : Viable Expression.tokens inner)
    (sound : Sound Expression.tokens inner) :
    Viable (fun first => first.1.toList.map (fun op => mark op.text) ++ first.2.tokens)
      (readSigned inner) := by
  have factors := factor_viable viable sound
  intro ts fault rest h
  rcases Reading.andThen_eq_failed h with inside | ⟨-, unsigned⟩ | ⟨op, ts1, sign, h⟩
  · exact absurd inside (addOperator_silent _ _ _)
  · obtain ⟨u, cut⟩ := factors _ _ _ (Reading.map_eq_failed unsigned)
    exact ⟨(none, u), cut⟩
  rw [addOperator_sound _ _ _ sign]
  rcases factors.expected (a := .name "x") rfl h with ⟨u, cut⟩ | ⟨u, ts2, _, none⟩
  · exact ⟨(some op, u), cut.cons _⟩
  · cases none

theorem term_viable (viable : Viable Expression.tokens inner)
    (sound : Sound Expression.tokens inner) (n : Nat) :
    Viable (fun term => term.1.1.toList.map (fun op => mark op.text) ++
      (term.1.2.tokens ++ term.2.tokens)) (readTerm inner n) := by
  intro ts fault rest h
  rcases started h with inside | ⟨first, ts1, start, h⟩
  · obtain ⟨first, cut⟩ := signed_viable viable sound _ _ _ inside
    refine ⟨(first, .nil), ?_⟩
    simpa [Factors.tokens] using cut
  · obtain ⟨more, cut⟩ := factors_viable viable sound n _ _ _ (Reading.map_eq_failed h)
    refine ⟨(first, more), ?_⟩
    rw [signed_sound sound _ _ _ start]
    simpa using cut.after (first.1.toList.map (fun op => mark op.text) ++ first.2.tokens)

theorem expressionWith_viable (viable : Viable Expression.tokens inner)
    (sound : Sound Expression.tokens inner) (n : Nat) :
    Viable Expression.tokens (Expression.readWith inner n) := by
  intro ts fault rest h
  rcases started h with inside | ⟨term, ts1, start, h⟩
  · obtain ⟨term, cut⟩ := term_viable viable sound n _ _ _ inside
    refine ⟨.signed term.1.1 term.1.2 term.2 .nil, ?_⟩
    simpa [Expression.tokens, Addends.tokens] using cut
  · obtain ⟨further, cut⟩ := addends_viable viable sound n n _ _ _ (Reading.map_eq_failed h)
    refine ⟨.signed term.1.1 term.1.2 term.2 further, ?_⟩
    have whole := cut.after (term.1.1.toList.map (fun op => mark op.text) ++
      (term.1.2.tokens ++ term.2.tokens))
    rw [term_sound sound n _ _ _ start]
    simpa [Expression.tokens] using whole

end Expressions

theorem expression_viable (n : Nat) : Viable Expression.tokens (Expression.read n) := by
  induction n with
  | zero =>
    intro ts fault rest h
    cases h
  | succ n ih => exact expressionWith_viable ih (expression_sound n) n

/-- A token at least is used up before the fault, so the expression starts as the text does. -/
theorem expression_broken {n : Nat} (h : Expression.read n ts = .failed fault rest)
    (room : ts.length ≤ n) :
    ∃ e : Expression, Cut ts rest e.tokens ∧
      (startsSigned ts = false → startsSigned e.tokens = false) := by
  obtain ⟨e, used, tail, split, yield, legible⟩ := expression_viable n _ _ _ h
  refine ⟨e, ⟨used, tail, split, yield, legible⟩, ?_⟩
  intro unsigned
  have outlook := expression_local n n ts room
  rw [h] at outlook
  cases outlook with
  | @failed _ used' _ settled =>
    have same : used' = used := List.append_cancel_right (settled.split.symm.trans split)
    obtain ⟨t, others, rfl⟩ := List.exists_cons_of_ne_nil (same ▸ settled.opens trivial)
    rw [split] at unsigned
    rw [yield]
    exact unsigned

theorem expression_expected {n : Nat} {next : Expression → List Token → Reading β}
    (h : (Expression.read n ts).andThen (.failed missing ts) next = .failed fault rest)
    (room : ts.length ≤ n) :
    (∃ e : Expression, Cut ts rest e.tokens ∧
      (startsSigned ts = false → startsSigned e.tokens = false)) ∨
      ∃ e us, Expression.read n ts = .matched e us ∧ next e us = .failed fault rest := by
  rcases Reading.andThen_eq_failed h with inside | ⟨-, none⟩ | later
  · exact .inl (expression_broken inside room)
  · cases none
    exact .inl ⟨.simple, .here rfl, fun _ => rfl⟩
  · exact .inr later

theorem condition_viable (n : Nat) : Viable Condition.tokens (Condition.read n) := by
  have expressions := expression_viable n
  intro ts fault rest h
  rcases started h with inside | ⟨left, ts1, first, h⟩
  · obtain ⟨left, cut⟩ := expressions _ _ _ inside
    exact ⟨⟨left, .less, .simple⟩, cut.append rfl⟩
  rw [expression_sound n _ _ _ first]
  rcases comparator_silent.expected h with rfl | ⟨op, ts2, compared, h⟩
  · exact ⟨⟨left, .less, .simple⟩, (Cut.here rfl).after left.tokens⟩
  rw [comparator_sound _ _ _ compared]
  rcases expressions.expected (a := .simple) rfl h with ⟨right, cut⟩ | ⟨right, ts3, _, none⟩
  · exact ⟨⟨left, op, right⟩, (cut.cons _).after left.tokens⟩
  · cases none

end TurtleGraphics.Phrase
