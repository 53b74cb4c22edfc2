import TurtleGraphics.CommandLine.Reply
import TurtleGraphics.Proofs.Grammar.Rendering
import TurtleGraphics.Proofs.Turtle.Displayed

/-!
What a text must be like to show how the program is used, the tokens of a source, the tree of a
program or a drawing. A token has a line with its number, its label and its text, and the number has
zeros in front of it up to a width; a node has a line that is indented by its depth; the lines of a
drawing, and its data file, are read back.
-/

namespace TurtleGraphics.Tree

variable {α : Type}

mutual

/-- The values in the order of the lines, each with its distance from the root. -/
def levels (depth : Nat) : Tree α → List (Nat × α)
  | node v ts => (depth, v) :: levelsAll (depth + 1) ts

def levelsAll (depth : Nat) : List (Tree α) → List (Nat × α)
  | [] => []
  | t :: ts => t.levels depth ++ levelsAll depth ts

end

mutual

theorem map_levels (depth : Nat) : (t : Tree α) → (t.levels depth).map (·.2) = t.preorder
  | node v ts => by rw [levels, List.map_cons, preorder, map_levelsAll]

theorem map_levelsAll (depth : Nat) :
    (ts : List (Tree α)) → (levelsAll depth ts).map (·.2) = preorderAll ts
  | [] => rfl
  | t :: ts => by rw [levelsAll, List.map_append, preorderAll, map_levels, map_levelsAll]

end

def row (entry : Nat × String) : String :=
  margin (2 * entry.1) ++ entry.2

mutual

theorem toList_outlineFrom (depth : Nat) : (t : Tree String) →
    (margin (2 * depth) ++ t.outlineFrom (depth + 1)).toList =
      (t.levels depth).flatMap fun entry => (row entry).toList ++ ['\n']
  | node w ts => by
    rw [outlineFrom, levels, List.flatMap_cons, ← toList_outlineAll (depth + 1) ts]
    simp [row]

theorem toList_outlineAll (depth : Nat) : (ts : List (Tree String)) →
    (outlineAll depth ts).toList =
      (levelsAll depth ts).flatMap fun entry => (row entry).toList ++ ['\n']
  | [] => rfl
  | t :: ts => by
    rw [outlineAll, levelsAll, List.flatMap_append, ← toList_outlineFrom depth t,
      ← toList_outlineAll depth ts, String.toList_append]

end

theorem toList_outline (t : Tree String) :
    t.outline.toList = (t.levels 0).flatMap fun entry => (row entry).toList ++ ['\n'] := by
  rw [outline, ← toList_outlineFrom 0 t]
  rfl

end TurtleGraphics.Tree

namespace TurtleGraphics.CommandLine

structure Lines (lines : List String) (text : String) : Prop where
  single : ∀ line ∈ lines, '\n' ∉ line.toList
  whole : text.toList = lines.flatMap fun line => line.toList ++ ['\n']

structure Numeral (width n : Nat) (ds : List Char) : Prop where
  digits : Token.AllDigits ds
  value : Decimal.valueOf ds = n
  wide : width ≤ ds.length
  short : width < ds.length → ds.head? ≠ some '0'

structure Shown (t : Token) (cs : List Char) : Prop where
  newline : t.kind = .endOfLine → cs = ['\\', 'n']
  theEnd : t.kind = .endOfInput → cs = ['E', 'O', 'I']
  other : t.kind ≠ .endOfLine → t.kind ≠ .endOfInput → cs = t.text.toList

def shade : Token.Kind → List Char
  | .endOfLine | .endOfInput => ['2']
  | .number => ['3', '6']
  | .name => ['3', '3']
  | .keyword => ['3', '4']
  | .symbol => ['3', '5']
  | .error => ['3', '1']

def escape (code : List Char) : List Char :=
  '\x1b' :: '[' :: code ++ ['m']

inductive TokenLine (colored : Bool) (x : Lexeme) (line : String) : Prop
  | mk {number before gap shown after : List Char} (numbered : Numeral 3 x.line number)
    (shaded : before = if colored then escape (shade x.token.kind) else [])
    (gapped : gap = List.replicate (8 - x.token.kind.label.length) ' ')
    (shows : Shown x.token shown) (unshaded : after = if colored then escape ['0'] else [])
    (chars : line.toList = '[' :: number ++ [']', ' '] ++ before ++ x.token.kind.label.toList ++
      gap ++ ' ' :: shown ++ after)

inductive Answer
  | usage
  | tokens (colored : Bool) (xs : List Lexeme)
  | tree (p : Program)
  | drawing (json : Bool) (strokes : List Stroke)

def rows (p : Program) : List String :=
  ((p.tree.map Node.display).levels 0).map Tree.row

inductive Prints : Answer → String → Prop
  | usage : Prints .usage CommandLine.usage
  | tokens {colored : Bool} {xs : List Lexeme} {lines : List String} {text : String}
    (printed : Lines lines text) (each : List.Forall₂ (TokenLine colored) xs lines) :
    Prints (.tokens colored xs) text
  | tree {p : Program} {text : String} (printed : Lines (rows p) text) : Prints (.tree p) text
  | json {strokes : List Stroke} {text : String}
    (reads : Stroke.recorded? text = some (strokes.map (Stroke.map known))) :
    Prints (.drawing true strokes) (text ++ "\n")
  | strokes {strokes : List Stroke} {lines : List String} {text : String}
    (printed : Lines lines text)
    (each : List.Forall₂ (fun s line => Stroke.displayed? line = some (s.map told)) strokes lines) :
    Prints (.drawing false strokes) text

theorem lines_join {α : Type} {line : α → String} {xs : List α}
    (single : ∀ x ∈ xs, '\n' ∉ (line x).toList) :
    Lines (xs.map line) (String.join (xs.map fun x => line x ++ "\n")) where
  single := List.forall_mem_map.mpr single
  whole := by simp [String.toList_join, List.flatMap_map]

theorem head?_digitsOf {n : ℕ} (positive : 0 < n) : (Decimal.digitsOf n).head? ≠ some '0' := by
  unfold Decimal.digitsOf
  induction n using Nat.strong_induction_on with
  | _ n ih =>
    by_cases one : n < 10
    · have each : ∀ d < 10, 0 < d → Nat.digitChar d ≠ '0' := by decide
      rw [Nat.toDigits_of_lt_base one]
      simpa using each n one positive
    · have first := ih (n / 10) (by omega) (by omega)
      rw [Nat.toDigits_of_base_le (by decide) (Nat.not_lt.mp one), List.head?_append_of_ne_nil]
      · exact first
      · exact Nat.toDigits_ne_nil

theorem numeral_padLeft (n : ℕ) : Numeral 3 n (padLeft 3 (toString n)).toList := by
  have chars : (padLeft 3 (toString n)).toList =
      Decimal.zeros (3 - (Decimal.digitsOf n).length) ++ Decimal.digitsOf n := by
    rw [padLeft, String.toList_append, toList_pushn, ← String.length_toList,
      Decimal.toList_toString]
    rfl
  rw [chars]
  constructor
  · exact (Decimal.allDigits_zeros _).append (Decimal.allDigits_digitsOf n)
  · rw [Decimal.valueOf_append, Decimal.valueOf_zeros, Decimal.valueOf_digitsOf, Nat.mul_zero,
      Nat.zero_add]
  · rw [List.length_append, Decimal.zeros, List.length_replicate]
    omega
  · intro longer
    rw [List.length_append, Decimal.zeros, List.length_replicate] at longer
    have none : 3 - (Decimal.digitsOf n).length = 0 := by omega
    rw [none]
    refine head?_digitsOf (Nat.pos_of_ne_zero ?_)
    rintro rfl
    exact absurd longer (by decide)

theorem shown_display (t : Token) : Shown t t.display.toList := by
  obtain ⟨kind, text⟩ := t
  cases kind <;> constructor <;> simp [Token.display]

theorem toList_colorCode (kind : Token.Kind) : (colorCode kind).toList = escape (shade kind) := by
  cases kind <;> rfl

theorem toList_listingLine (colored : Bool) (x : Lexeme) : (listingLine colored x).toList =
    '[' :: (padLeft 3 (toString x.line)).toList ++ [']', ' '] ++
      (if colored then escape (shade x.token.kind) else []) ++ x.token.kind.label.toList ++
      List.replicate (8 - x.token.kind.label.length) ' ' ++ ' ' :: x.token.display.toList ++
      (if colored then escape ['0'] else []) := by
  cases colored <;> simp [listingLine, padRight, toList_pushn, toList_colorCode, escape]

theorem tokenLine_listingLine (colored : Bool) (x : Lexeme) :
    TokenLine colored x (listingLine colored x) :=
  .mk (numeral_padLeft x.line) rfl rfl (shown_display x.token) rfl (toList_listingLine colored x)

theorem newline_listingLine (colored : Bool) (x : Lexeme)
    (line : x.token.kind ≠ .endOfLine → '\n' ∉ x.token.text.toList) :
    '\n' ∉ (listingLine colored x).toList := by
  have number : '\n' ∉ (padLeft 3 (toString x.line)).toList := fun member =>
    absurd ((numeral_padLeft x.line).digits _ member) (by decide)
  have shaded : '\n' ∉ (if colored then escape (shade x.token.kind) else []) := by
    cases colored <;> cases x.token.kind <;> decide
  have label : '\n' ∉ x.token.kind.label.toList := by
    cases x.token.kind <;> decide
  have shown : '\n' ∉ x.token.display.toList := by
    unfold Token.display
    split
    · decide
    · decide
    · exact line ‹_›
  have unshaded : '\n' ∉ (if colored then escape ['0'] else []) := by
    cases colored <;> decide
  rw [toList_listingLine]
  generalize (padLeft 3 (toString x.line)).toList = ds at number
  simp [number, shaded, label, shown, unshaded]

theorem prints_listing (colored : Bool) (source : String) :
    Prints (.tokens colored (Lexeme.ofSource keywords source))
      (listing colored (Lexeme.ofSource keywords source)) := by
  obtain ⟨pieces, same, parts⟩ := Lexeme.partition_ofSource keywords source
  refine .tokens (lines_join fun x member => newline_listingLine colored x ?_) ?_
  · have token : x.token ∈ pieces.map (·.token) := by
      rw [same]
      exact List.mem_map_of_mem member
    obtain ⟨p, inside, token⟩ := List.mem_map.mp token
    obtain ⟨before, after, split⟩ := List.append_of_mem inside
    rw [← token]
    exact (parts.fits before p after split).tokenLine
  · rw [List.forall₂_map_right_iff, List.forall₂_same]
    exact fun x _ => tokenLine_listingLine colored x

theorem prints_outline {source : String} {p : Program} (accepted : Program.parse source = .ok p) :
    Prints (.tree p) p.outline := by
  have plain := (Program.fits_of_parse accepted).plain
  refine .tree ⟨?_, ?_⟩
  · rw [rows, List.forall_mem_map]
    intro entry member
    have word : entry.2 ∈ (p.tree.map Node.display).preorder := by
      rw [← Tree.map_levels 0]
      exact List.mem_map_of_mem member
    rw [Tree.row, String.toList_append, Tree.toList_margin, List.mem_append, not_or]
    exact ⟨fun blank => absurd (List.eq_of_mem_replicate blank) (by decide),
      Tree.isPlain_line (plain _ word)⟩
  · rw [rows, List.flatMap_map]
    exact Tree.toList_outline _

theorem prints_drawing (json : Bool) (strokes : List Stroke) :
    Prints (.drawing json strokes) (drawing json strokes) := by
  cases json with
  | true => exact .json (recorded?_pretty strokes)
  | false =>
    refine .strokes (lines_join fun s _ => newline_display s) ?_
    rw [List.forall₂_map_right_iff, List.forall₂_same]
    exact fun s _ => displayed?_display s

def Answer.text : Answer → String
  | usage => CommandLine.usage
  | tokens colored xs => listing colored xs
  | tree p => p.outline
  | drawing json strokes => CommandLine.drawing json strokes

end TurtleGraphics.CommandLine
