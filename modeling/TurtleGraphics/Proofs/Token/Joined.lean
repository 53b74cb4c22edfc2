import TurtleGraphics.Proofs.Token.Spelling

/-!
Writing down the tokens of a source with single blanks between them, and reading them again. What
came after a token in the source had no part in what it is, so a blank there does as well.
-/

namespace TurtleGraphics

namespace Token

/-- How a token is written down: a line end as a newline, and the end of input as nothing. -/
def written (t : Token) : String :=
  match t.kind with
  | .endOfLine => "\n"
  | .endOfInput => ""
  | _ => t.text

def joined (ts : List Token) : String :=
  " ".intercalate (ts.map written)

variable {keywords : List String}

theorem Reads.written_eq {t : Token} {rest : List Char} (reads : Reads keywords t rest) :
    t.written = t.text := by
  cases reads with
  | @word w _ _ _ =>
    unfold ofWord
    split <;> rfl
  | symbol => rfl
  | newline => rfl
  | literal numeric => rcases numeric with rfl | rfl <;> rfl

/-- A token of a source is written down as the text it was read from. -/
theorem written_of_mem_ofSource {source : String} {t : Token}
    (member : t ∈ (Lexeme.ofSource keywords source).map (·.token)) : t.written = t.text := by
  obtain ⟨pieces, same, -, reads⟩ := Lexeme.pieces_ofSource keywords source
  rw [← same] at member
  obtain ⟨p, inside, rfl⟩ := List.mem_map.mp member
  obtain ⟨before, after, split⟩ := List.append_of_mem inside
  rcases reads before p after split with last | reads
  · rw [last]
    rfl
  · exact reads.written_eq

theorem toList_joined_concat {ts : List Token} {t : Token}
    (written : ∀ u ∈ ts ++ [t], u.written = u.text) :
    (joined (ts ++ [t])).toList = spelled ts ++ t.text.toList := by
  induction ts with
  | nil =>
    have own : t.written = t.text := written t (by simp)
    simp [joined, spelled, own]
  | cons u ts ih =>
    have first : u.written = u.text := written u (by simp)
    have others := ih fun v member => written v (List.mem_cons_of_mem u member)
    have nonempty : (ts ++ [t]).map Token.written ≠ [] := by simp
    have step : joined (u :: (ts ++ [t])) = u.text ++ " " ++ joined (ts ++ [t]) := by
      rw [joined, List.map_cons, String.intercalate_cons_of_ne_nil nonempty, first, joined]
    rw [List.cons_append, step, String.toList_append, String.toList_append, others]
    simp [spelled]

/-- At the end of a text a token is read as before a blank. -/
theorem Alone.tokens_text {t : Token} (alone : Alone keywords t) :
    Draft.gap.tokens keywords t.text.toList = [t, theEnd] := by
  have split : Draft.gap.tokens keywords t.text.toList =
      (Draft.gap.run keywords t.text.toList).1 ++
        (Draft.gap.run keywords t.text.toList).2.tokens keywords [] := by
    rw [← Draft.tokens_append, List.append_nil]
  cases alone with
  | complete read =>
    rw [split, read]
    rfl
  | unclosed read close =>
    rw [split, read]
    simp [Draft.tokens, close]

theorem tokens_joined {ts : List Token} (alone : ∀ t ∈ ts, Alone keywords t)
    (written : ∀ t ∈ ts, t.written = t.text) :
    Draft.gap.tokens keywords (joined ts).toList = ts ++ [theEnd] := by
  rcases List.eq_nil_or_concat ts with rfl | ⟨before, t, rfl⟩
  · rfl
  · rw [List.concat_eq_append] at alone written ⊢
    have last : Alone keywords t := alone t (by simp)
    rw [toList_joined_concat written,
      tokens_spelled fun u member => alone u (List.mem_append_left [t] member), last.tokens_text]
    simp

theorem tokens_joined_theEnd {ts : List Token} (alone : ∀ t ∈ ts, Alone keywords t)
    (written : ∀ t ∈ ts, t.written = t.text) :
    Draft.gap.tokens keywords (joined (ts ++ [theEnd])).toList = ts ++ [theEnd] := by
  have all : ∀ t ∈ ts ++ [theEnd], t.written = t.text := by
    intro t member
    rcases List.mem_append.mp member with inside | last
    · exact written t inside
    · rw [List.mem_singleton.mp last]
      rfl
  rw [toList_joined_concat all, tokens_spelled alone]
  rfl

end Token

/-- Tokens that are written down are read as the same tokens again, whether or not a blank is left
where the end of input was. -/
theorem Feed.tokenize_joined (keywords : List String) (source : String) :
    ∃ ts, ((ofSource keywords source).use .tokenize).1 = .tokens (ts ++ [Token.theEnd]) ∧
      ((ofSource keywords (Token.joined (ts ++ [Token.theEnd]))).use .tokenize).1 =
        .tokens (ts ++ [Token.theEnd]) ∧
      ((ofSource keywords (Token.joined ts)).use .tokenize).1 =
        .tokens (ts ++ [Token.theEnd]) := by
  obtain ⟨ts, whole, others⟩ := Lexeme.tokens_ofSource keywords source
  have member (t : Token) (inside : t ∈ ts) :
      t ∈ (Lexeme.ofSource keywords source).map (·.token) := by
    rw [whole]
    exact List.mem_append_left _ inside
  have alone : ∀ t ∈ ts, Token.Alone keywords t := by
    intro t inside
    rcases Token.legible_of_mem_ofSource (member t inside) with rfl | legible
    · exact absurd rfl (others _ inside)
    · exact legible.alone
  have written : ∀ t ∈ ts, t.written = t.text :=
    fun t inside => Token.written_of_mem_ofSource (member t inside)
  have reread (text : String) : ((ofSource keywords text).use .tokenize).1 =
      .tokens (Token.Draft.gap.tokens keywords text.toList) :=
    congrArg Answer.tokens (Lexeme.tokens_readFrom keywords 1 .gap text.toList)
  refine ⟨ts, congrArg Answer.tokens whole, ?_, ?_⟩
  · rw [reread, Token.tokens_joined_theEnd alone written]
  · rw [reread, Token.tokens_joined alone written]

-- A second sign ends a faulty exponent. With a blank after it the text is read as before.
example : Token.joined [⟨.error, "2.5e--"⟩, ⟨.name, "x"⟩, ⟨.symbol, "/"⟩, ⟨.number, "1e+"⟩] =
      "2.5e-- x / 1e+" ∧
    ((Feed.ofSource [] "2.5e--x/1e+").use .tokenize).1 =
      ((Feed.ofSource [] "2.5e-- x / 1e+").use .tokenize).1 := by
  decide +kernel

end TurtleGraphics
