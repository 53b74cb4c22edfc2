import TurtleGraphics.Proofs.Token.Partition

/-!
A feed is a place in the list of tokens of its source, however it is used. It runs dry only when the
end of input has been delivered.
-/

namespace TurtleGraphics.Feed

def useAll (f : Feed) (us : List Use) : Feed :=
  us.foldl (fun f u => (f.use u).2) f

structure Within (xs done : List Lexeme) (f : Feed) : Prop where
  whole : xs = done ++ f.pending
  latest : f.latest.lexeme? = done.getLast?

variable {xs done : List Lexeme} {f g : Feed} {t : Token}

theorem Within.next (h : f.Within xs done) (step : f.next? = some (t, g)) :
    ∃ done, g.Within xs done := by
  obtain ⟨latest, pending⟩ := f
  cases latest with
  | due x =>
    cases step
    exact ⟨done, h.whole, h.latest⟩
  | nothing | delivered y =>
    cases pending with
    | nil => cases step
    | cons x rest =>
      cases step
      refine ⟨done ++ [x], ?_, ?_⟩
      · simpa using h.whole
      · simp [Latest.lexeme?]

theorem Within.pushBack (h : f.Within xs done) : f.pushBack.Within xs done := by
  obtain ⟨latest, pending⟩ := f
  cases latest <;> exact ⟨h.whole, h.latest⟩

/-- The last token ahead is the last one of all. -/
theorem Within.getLast?_ahead (h : f.Within xs done) {x : Lexeme}
    (last : f.ahead.getLast? = some x) : xs.getLast? = some x := by
  have whole := h.whole
  have latest := h.latest
  obtain ⟨kept, pending⟩ := f
  cases kept with
  | due y =>
    cases pending with
    | nil => simp_all [ahead, Latest.lexeme?]
    | cons z rest => simp_all [ahead, List.getLast?_append, List.getLast?_cons]
  | nothing | delivered y =>
    have some : pending.getLast? = some x := last
    simp [whole, List.getLast?_append, some]

theorem Within.drained (h : f.Within xs done) : ∃ done, f.drained.Within xs done := by
  unfold Feed.drained
  split
  · exact ⟨done, h⟩
  · rename_i x last
    exact ⟨xs, by simp, (h.getLast?_ahead last).symm⟩

theorem Within.use (h : f.Within xs done) (u : Use) : ∃ done, (f.use u).2.Within xs done := by
  cases u with
  | next | nextToken =>
    unfold Feed.use
    dsimp only
    split
    · rename_i step
      exact h.next step
    · exact ⟨done, h⟩
  | pushBack => exact ⟨done, h.pushBack⟩
  | tokenize => exact h.drained

theorem Within.useAll (h : f.Within xs done) (us : List Use) :
    ∃ done, (f.useAll us).Within xs done := by
  induction us generalizing f done with
  | nil => exact ⟨done, h⟩
  | cons u us ih =>
    obtain ⟨later, used⟩ := h.use u
    exact ih used

theorem Within.latest_of_next?_eq_none (h : f.Within xs done) (nonempty : xs ≠ [])
    (dry : f.next? = none) : ∃ x, f.latest = .delivered x ∧ xs.getLast? = some x := by
  have whole := h.whole
  have latest := h.latest
  obtain ⟨kept, pending⟩ := f
  cases pending with
  | cons x rest => cases kept <;> cases dry
  | nil =>
    obtain rfl : xs = done := by simpa using whole
    cases kept with
    | due y => cases dry
    | nothing => exact absurd (List.getLast?_eq_none_iff.mp latest.symm) nonempty
    | delivered y => exact ⟨y, rfl, latest.symm⟩

/-- The tokens that a feed delivers until it runs dry, each with its line as the feed then says. -/
inductive Delivers : Feed → List Lexeme → Prop
  | dry {f : Feed} (dry : f.next? = none) : Delivers f []
  | next {f g : Feed} {t : Token} {xs : List Lexeme} (step : f.next? = some (t, g))
    (others : Delivers g xs) : Delivers f (⟨t, g.tokenLine⟩ :: xs)

theorem delivers_iff : Delivers f xs ↔ xs = f.ahead := by
  constructor
  · intro delivers
    induction delivers with
    | @dry f dry =>
      have none := next?_eq_none_iff.mp dry
      exact (List.map_eq_nil_iff.mp none).symm
    | next step _ ih => rw [ahead_of_next? step, ih]
  · rintro rfl
    generalize same : f.ahead = xs
    induction xs generalizing f with
    | nil => exact .dry (by rw [next?, same])
    | cons x xs ih =>
      have step : f.next? = some (x.token, ⟨.delivered x, xs⟩) := by rw [next?, same]
      exact .next step (ih rfl)

/-- A fresh feed can be drained at once, and the tokens with the gaps before them are then the
source, cut up. However it is used before, it runs dry only when the end of input has been
delivered. -/
theorem tokenize_partition (keywords : List String) (source : String) :
    ∃ pieces, ((ofSource keywords source).use .tokenize).1 = .tokens (pieces.map (·.token)) ∧
      Token.Partition keywords source.toList pieces ∧
        ∀ us, ((ofSource keywords source).useAll us).next? = none →
          ∃ line, ((ofSource keywords source).useAll us).latest =
            .delivered ⟨Token.theEnd, line⟩ := by
  obtain ⟨pieces, same, parts⟩ := Lexeme.partition_ofSource keywords source
  refine ⟨pieces, ?_, parts, ?_⟩
  · rw [same]
    rfl
  · intro us dry
    have fresh : (ofSource keywords source).Within (Lexeme.ofSource keywords source) [] :=
      ⟨rfl, rfl⟩
    obtain ⟨done, used⟩ := fresh.useAll us
    obtain ⟨⟨t, line⟩, delivered, last⟩ :=
      used.latest_of_next?_eq_none (Lexeme.ofSource_ne_nil keywords source) dry
    obtain ⟨before, tokens, -⟩ := Lexeme.tokens_ofSource keywords source
    have ends : t = Token.theEnd := by
      have mapped := congrArg List.getLast? tokens
      simpa [List.getLast?_map, last] using mapped
    exact ⟨line, ends ▸ delivered⟩

end TurtleGraphics.Feed
