import TurtleGraphics.Proofs.Grammar.Viable.Command

/-!
Where the reading of a script comes to a halt before its end. What was read up to there begins a
script, and with the next token it begins none.
-/

namespace TurtleGraphics.Phrase

theorem Reading.andThen_assoc {α β γ : Type} (r : Reading α) (f : α → List Token → Reading β)
    (g : β → List Token → Reading γ) :
    (r.andThen .passed f).andThen .passed g =
      r.andThen .passed fun a ts => (f a ts).andThen .passed g := by
  cases r <;> rfl

theorem take_eq_passed_of_head {α : Type} {w : Grammar.Wanted} {f : Token → α}
    {ts us : List Token} (h : take w f ts = .passed) (head : us.head? = ts.head?) :
    take w f us = .passed := by
  cases us with
  | nil => rfl
  | cons t us =>
    obtain ⟨others, rfl⟩ := List.head?_eq_some_iff.mp head.symm
    rw [take] at h ⊢
    split at h
    · cases h
    · rename_i other
      rw [if_neg other]

namespace Script

open Grammar (Fault)

def readBlank (n : Nat) : Reader (List String) := fun ts =>
  (LineEnd.read n ts).andThen (.matched [] ts) fun l ts => .matched (l.first :: l.more) ts

structure Parts where
  first : Command
  more : List Command
  procedures : List Procedure

namespace Parts

def tokens (p : Parts) : List Token :=
  p.first.tokens ++ (p.more.flatMap Command.tokens ++ p.procedures.flatMap Procedure.tokens)

structure Longest (p : Parts) : Prop where
  first : p.first.Longest
  more : ∀ c ∈ p.more, c.Longest
  procedures : ∀ q ∈ p.procedures, q.body.Longest

def read (n : Nat) : Reader Parts := fun ts =>
  (Command.read n ts).andThen .passed fun first ts =>
  (many (Command.read n) n ts).andThen .passed fun more ts =>
  (many (Procedure.read n) n ts).andThen .passed fun procedures ts =>
  .matched ⟨first, more, procedures⟩ ts

end Parts

def readEnd (blank : List String) (p : Parts) : Reader Script := fun ts =>
  (take ⟨.endOfInput, none⟩ id ts).andThen (.failed .unexpectedTerms ts) fun _ ts =>
  .matched ⟨blank, p.first, p.more, p.procedures⟩ ts

theorem readTrimmed_eq (n : Nat) (blank : List String) (ts : List Token) :
    readTrimmed n blank ts = (Parts.read n ts).andThen .passed (readEnd blank) := by
  simp only [readTrimmed, Parts.read, Reading.andThen_assoc]
  rfl

theorem read_eq (n : Nat) (ts : List Token) :
    Script.read n ts = (readBlank n ts).andThen .passed fun blank us =>
      (Parts.read n us).andThen .passed (readEnd blank) := by
  unfold Script.read readBlank
  cases LineEnd.read n ts with
  | passed => exact readTrimmed_eq n [] ts
  | matched l us => exact readTrimmed_eq n (l.first :: l.more) us
  | failed fault us => rfl

variable {n : Nat} {ts rest : List Token}

theorem readBlank_matched (n : Nat) (ts : List Token) :
    ∃ blank us, readBlank n ts = .matched blank us := by
  unfold readBlank
  generalize read : LineEnd.read n ts = reading
  cases reading with
  | matched l us => exact ⟨_, us, rfl⟩
  | passed => exact ⟨[], ts, rfl⟩
  | failed fault us => exact absurd read (lineEnd_silent n ts fault us)

theorem blank_sound (n : Nat) : Sound (·.map endOfLine) (readBlank n) := by
  intro ts blank us h
  rw [readBlank, Reading.andThen_eq_matched] at h
  rcases h with ⟨l, vs, read, same⟩ | ⟨-, same⟩
  · cases same
    exact lineEnd_sound n _ _ _ read
  · cases same
    rfl

inductive Halts (n : Nat) (ts rest : List Token) : Prop
  | missing {blank : List String} (skipped : readBlank n ts = .matched blank rest)
    (none : Parts.read n rest = .passed)
  | faulty {blank : List String} {us : List Token} {fault : Fault}
    (skipped : readBlank n ts = .matched blank us) (failed : Parts.read n us = .failed fault rest)
  | unended {blank : List String} {us : List Token} {p : Parts}
    (skipped : readBlank n ts = .matched blank us) (read : Parts.read n us = .matched p rest)
    (other : take ⟨.endOfInput, none⟩ id rest = .passed)

theorem readEnd_cases (blank : List String) (p : Parts) (ts : List Token) :
    (take ⟨.endOfInput, none⟩ id ts = .passed ∧
      readEnd blank p ts = .failed .unexpectedTerms ts) ∨
      ∃ s us, readEnd blank p ts = .matched s us := by
  unfold readEnd
  generalize read : take ⟨.endOfInput, none⟩ id ts = reading
  cases reading with
  | matched t us => exact .inr ⟨_, us, rfl⟩
  | passed => exact .inl ⟨rfl, rfl⟩
  | failed fault us => exact absurd read (take_silent _ _ _ _ _)

theorem halts_of_failed {fault : Fault} (h : Script.read n ts = .failed fault rest) :
    Halts n ts rest := by
  obtain ⟨blank, us, skipped⟩ := readBlank_matched n ts
  rw [read_eq, skipped] at h
  change (Parts.read n us).andThen .passed (readEnd blank) = .failed fault rest at h
  rcases started h with inside | ⟨p, vs, read, last⟩
  · exact .faulty skipped inside
  · rcases readEnd_cases blank p vs with ⟨other, same⟩ | ⟨s, ws, same⟩
    · rw [same] at last
      cases last
      exact .unended skipped read other
    · rw [same] at last
      cases last

theorem halts_of_passed {blank : List String} (h : Script.read n ts = .passed)
    (skipped : readBlank n ts = .matched blank rest) : Halts n ts rest := by
  rw [read_eq, skipped] at h
  change (Parts.read n rest).andThen .passed (readEnd blank) = .passed at h
  generalize read : Parts.read n rest = reading at h
  cases reading with
  | matched p us =>
    rcases readEnd_cases blank p us with ⟨-, same⟩ | ⟨s, vs, same⟩
    · cases same.symm.trans h
    · cases same.symm.trans h
  | passed => exact .missing skipped read
  | failed fault us => cases h

theorem parts_careful (n : Nat) : Careful n Parts.tokens Parts.Longest (Parts.read n) := by
  intro ts p rest room h
  simp only [Parts.read, Reading.andThen_eq_matched, reduceCtorEq, and_false, or_false,
    Reading.matched.injEq] at h
  obtain ⟨first, us, head, more, vs, tail, procedures, ws, defined, rfl, rfl⟩ := h
  obtain ⟨rfl, good⟩ := command_careful n _ _ _ room head
  rw [List.length_append] at room
  obtain ⟨rfl, goods⟩ := many_careful (command_careful n) n _ _ _ (by omega) tail
  rw [List.length_append] at room
  obtain ⟨rfl, bodies⟩ := many_careful (procedure_careful n) n _ _ _ (by omega) defined
  exact ⟨by simp [Parts.tokens], good, goods, bodies⟩

theorem parts_viable (n : Nat) : ViableUpTo n Parts.tokens Parts.Longest (Parts.read n) := by
  intro ts fault rest room h
  rcases started h with inside | ⟨first, us, head, h⟩
  · obtain ⟨first, good, cut⟩ := command_viable n _ _ _ room inside
    exact ⟨⟨first, [], []⟩, ⟨good, by simp, by simp⟩, cut.append rfl⟩
  obtain ⟨split, good⟩ := command_careful n _ _ _ room head
  rw [split, List.length_append] at room
  rw [split]
  rcases started h with inside | ⟨more, vs, tail, h⟩
  · obtain ⟨more, goods, cut⟩ :=
      many_viable (command_viable n) (command_careful n) n _ _ _ (by omega) inside
    exact ⟨⟨first, more, []⟩, ⟨good, goods, by simp⟩, (cut.append rfl).after first.tokens⟩
  obtain ⟨split', goods⟩ := many_careful (command_careful n) n _ _ _ (by omega) tail
  rw [split', List.length_append] at room
  rw [split']
  rcases started h with inside | ⟨procedures, ws, -, none⟩
  · obtain ⟨procedures, bodies, cut⟩ :=
      many_viable (procedure_viable n) (procedure_careful n) n _ _ _ (by omega) inside
    exact ⟨⟨first, more, procedures⟩, ⟨good, goods, bodies⟩,
      (cut.after (more.flatMap Command.tokens)).after first.tokens⟩
  · cases none

/-- A script with one more procedure, so that it ends with a line end. -/
def closing (blank : List String) (p : Parts) : Script :=
  ⟨blank, p.first, p.more, p.procedures ++ [.simple]⟩

def closingTokens : List Token :=
  [word "def", naming "x", mark "\x7b", endOfLine "\n", mark "\x7d"]

theorem closing_tokens (blank : List String) (p : Parts) :
    (closing blank p).tokens =
      (blank.map endOfLine ++ (p.tokens ++ closingTokens)) ++ [Token.newline, Token.theEnd] := by
  have last : Procedure.simple.tokens = closingTokens ++ [Token.newline] := rfl
  simp [closing, Script.tokens, Parts.tokens, last]

theorem closing_longest {p : Parts} (longest : p.Longest) (blank : List String) :
    (closing blank p).Longest := by
  refine ⟨longest.first, longest.more, ?_⟩
  intro q member
  rcases List.mem_append.mp member with old | new
  · exact longest.procedures q old
  · obtain rfl := List.mem_singleton.mp new
    trivial

/-- Where the reading halts, it has read the beginning of a script. -/
theorem Halts.viable (halts : Halts n ts rest) (room : ts.length ≤ n) :
    ∃ s : Script, s.Longest ∧ ∃ us, s.tokens = us ++ [Token.newline, Token.theEnd] ∧
      Cut ts rest us := by
  have finish {blank : List String} {us : List Token} {p : Parts} (longest : p.Longest)
      (skipped : readBlank n ts = .matched blank us) (cut : Cut us rest p.tokens) :
      ∃ s : Script, s.Longest ∧ ∃ us, s.tokens = us ++ [Token.newline, Token.theEnd] ∧
        Cut ts rest us := by
    refine ⟨closing blank p, closing_longest longest blank, _, closing_tokens blank p, ?_⟩
    rw [blank_sound n _ _ _ skipped]
    exact (cut.append rfl).after (blank.map endOfLine)
  have shorter {blank : List String} {us : List Token}
      (skipped : readBlank n ts = .matched blank us) : us.length ≤ n := by
    have split := blank_sound n _ _ _ skipped
    rw [split, List.length_append] at room
    omega
  cases halts with
  | missing skipped none =>
    exact finish (p := ⟨.simple, [], []⟩) ⟨trivial, by simp, by simp⟩ skipped (.here rfl)
  | faulty skipped failed =>
    obtain ⟨p, longest, cut⟩ := parts_viable n _ _ _ (shorter skipped) failed
    exact finish longest skipped cut
  | unended skipped read other =>
    obtain ⟨rfl, longest⟩ := parts_careful n _ _ _ (shorter skipped) read
    refine finish longest skipped ?_
    exact ⟨_, [], rfl, by simp, by simp [AllLegible]⟩

variable {n' : Nat}

theorem blank_local (n n' : Nat) : Further n n' (readBlank n) (readBlank n') := by
  apply (lineEnd_local n n').andThen (matched_local [] n n') (Nat.le_succ n) (Nat.le_succ n')
  intro l
  exact matched_local _ n n'

theorem parts_local (n n' : Nat) : Opening n n' (Parts.read n) (Parts.read n') := by
  apply (command_local n n').first
  intro first
  apply (many_local (command_local n n') (Nat.le_refl n) (Nat.le_refl n')).thenFurther
  intro more
  apply (many_local (procedure_local n n') (Nat.le_refl n) (Nat.le_refl n')).thenFurther
  intro procedures
  exact matched_local _ n n'

theorem readEnd_passed {blank : List String} {p : Parts} {s : Script} {last : List Token}
    (other : take ⟨.endOfInput, none⟩ id rest = .passed) :
    readEnd blank p rest ≠ .matched s last := by
  intro h
  rw [readEnd, other] at h
  cases h

/-- After the blank lines it is the parts that decide. -/
theorem blank_leads (n' : Nat) {blank : List String} {us : List Token} (room : ts.length ≤ n)
    (skipped : readBlank n ts = .matched blank us) :
    ∃ used, ts = used ++ us ∧ Inside used ∧
      ∀ us', us'.head? = us.head? → (used ++ us').length ≤ n' →
        Script.read n' (used ++ us') = (Parts.read n' us').andThen .passed (readEnd blank) := by
  have outlook := blank_local n n' ts room
  rw [skipped] at outlook
  cases outlook with
  | @matched _ used _ settled =>
    refine ⟨used, settled.split, settled.inside, ?_⟩
    intro us' head short
    rw [read_eq, settled.same us' head short]
    rfl

/-- No script begins with what was read and the next token. -/
theorem Halts.apart (halts : Halts n ts rest) (n' : Nat) (room : ts.length ≤ n) :
    ∃ used, ts = used ++ rest ∧ Inside used ∧
      ∀ rest', rest'.head? = rest.head? → (used ++ rest').length ≤ n' →
        ∀ s last, Script.read n' (used ++ rest') ≠ .matched s last := by
  have within {blank : List String} {us later : List Token} {outcome : List Token → Reading Parts}
      (skipped : readBlank n ts = .matched blank us)
      (settled : Settled True n' (Parts.read n') us later rest outcome)
      (unended : ∀ rest', rest'.head? = rest.head? → ∀ s last,
        (outcome rest').andThen .passed (readEnd blank) ≠ .matched s last) :
      ∃ used, ts = used ++ rest ∧ Inside used ∧
        ∀ rest', rest'.head? = rest.head? → (used ++ rest').length ≤ n' →
          ∀ s last, Script.read n' (used ++ rest') ≠ .matched s last := by
    obtain ⟨used, split, inside, leads⟩ := blank_leads n' room skipped
    refine ⟨used ++ later, ?_, inside.append settled.inside, ?_⟩
    · rw [split, settled.split, List.append_assoc]
    · intro rest' head short s last
      have same_head : (later ++ rest').head? = us.head? := by
        rw [settled.split, List.head?_append, List.head?_append, head]
      rw [List.append_assoc] at short ⊢
      rw [leads _ same_head short]
      rw [List.length_append] at short
      rw [settled.same rest' head (by omega)]
      exact unended rest' head s last
  have outlook {blank : List String} {us : List Token}
      (skipped : readBlank n ts = .matched blank us) :
      Outlook True n' (Parts.read n') us (Parts.read n us) := by
    have split := blank_sound n _ _ _ skipped
    rw [split, List.length_append] at room
    exact parts_local n n' us (by omega)
  cases halts with
  | missing skipped none =>
    obtain ⟨used, split, inside, leads⟩ := blank_leads n' room skipped
    refine ⟨used, split, inside, ?_⟩
    intro rest' head short s last
    have ahead := outlook skipped
    rw [none] at ahead
    cases ahead with
    | passed missed same =>
      rw [leads rest' head short, same rest' head (by rw [List.length_append] at short; omega)]
      exact nofun
  | faulty skipped failed =>
    have ahead := outlook skipped
    rw [failed] at ahead
    cases ahead with
    | failed settled => exact within skipped settled fun _ _ _ _ => nofun
  | unended skipped read other =>
    have ahead := outlook skipped
    rw [read] at ahead
    cases ahead with
    | matched settled =>
      apply within skipped settled
      intro rest' head s last
      exact readEnd_passed (take_eq_passed_of_head other head)

end Script

end TurtleGraphics.Phrase
