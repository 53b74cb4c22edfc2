import TurtleGraphics.Proofs.Turtle.Recorded

/-!
A stroke is read back from its line, with its numbers as they are after trimming.
-/

namespace TurtleGraphics

open Decimal

/-- The double whose text is shown; there is one text for what is not a number. -/
def told (x : Float) : Float :=
  match Binary64.ofFloat (trimmed x) with
  | .nan => unknown
  | _ => trimmed x

def hexDigit? (c : Char) : Option Nat :=
  "0123456789ABCDEF".toList.idxOf? c

def hexValue? (ds : List Char) : Option Nat :=
  ds.foldlM (fun n c => (hexDigit? c).map (16 * n + ·)) 0

/-- What stands between an opening and a closing text. -/
def between? (opening closing : List Char) (word : String) : Option (List Char) :=
  let cs := word.toList
  let inner := (cs.drop opening.length).take (cs.length - opening.length - closing.length)
  if opening ++ inner ++ closing = cs then some inner else none

def Point.words (p : Point) : List String :=
  ["(" ++ coordinate p.x ++ ",", coordinate p.y ++ ")"]

namespace Stroke

def words : Stroke → List String
  | line start finish rgb => "line" :: start.words ++ "->" :: finish.words ++ [hex rgb]
  | moveTo point => "move" :: point.words
  | heading degrees => ["heading", coordinate degrees]
  | penUp => ["pen", "up"]
  | penDown => ["pen", "down"]
  | color rgb => ["color", hex rgb]

def point? (x y : String) : Option Point := do
  return ⟨← read? (String.ofList (← between? ['('] [','] x)),
    ← read? (String.ofList (← between? [] [')'] y))⟩

def rgb? (word : String) : Option UInt32 := do
  let digits ← between? ['#'] [] word
  let n ← hexValue? digits
  if 6 ≤ digits.length ∧ n < UInt32.size then return UInt32.ofNat n else none

def displayed? (text : String) : Option Stroke :=
  match (text.toList.splitOn ' ').map String.ofList with
  | ["line", a, b, "->", c, d, rgb] => do
    return .line (← point? a b) (← point? c d) (← rgb? rgb)
  | ["move", a, b] => do return moveTo (← point? a b)
  | ["heading", degrees] => do return heading (← read? degrees)
  | ["pen", "up"] => some penUp
  | ["pen", "down"] => some penDown
  | ["color", rgb] => do return color (← rgb? rgb)
  | _ => none

end Stroke

theorem between?_append (opening inner closing : List Char) :
    between? opening closing (String.ofList (opening ++ inner ++ closing)) = some inner := by
  simp [between?]

theorem hexValue?_append (ds es : List Char) : hexValue? (ds ++ es) =
    (hexValue? ds).bind fun n => es.foldlM (fun n c => (hexDigit? c).map (16 * n + ·)) n := by
  simp [hexValue?]

theorem hexDigit?_digitChar : ∀ d < 16, hexDigit? (Nat.digitChar d).toUpper = some d := by
  decide

theorem hexValue?_toDigits (n : ℕ) :
    hexValue? ((Nat.toDigits 16 n).map Char.toUpper) = some n := by
  induction n using Nat.strong_induction_on with
  | _ n ih =>
    by_cases one : n < 16
    · rw [Nat.toDigits_of_lt_base one]
      simp [hexValue?, hexDigit?_digitChar n one]
    · have digit := hexDigit?_digitChar _ (Nat.mod_lt n (show 0 < 16 by decide))
      have before := ih (n / 16) (by omega)
      rw [Nat.toDigits_of_base_le (by decide) (Nat.not_lt.mp one), List.map_append,
        hexValue?_append, before]
      simp [digit, Nat.div_add_mod]

theorem hexValue?_zeros (count : ℕ) (ds : List Char) :
    hexValue? (List.replicate count '0' ++ ds) = hexValue? ds := by
  induction count with
  | zero => rfl
  | succ count ih =>
    rw [List.replicate_succ, List.cons_append, ← ih]
    rfl

theorem hex_eq (rgb : UInt32) : ∃ ds, hex rgb = String.ofList ('#' :: ds) ∧ 6 ≤ ds.length ∧
    hexValue? ds = some rgb.toNat := by
  have value := hexValue?_toDigits rgb.toNat
  unfold hex
  dsimp only
  generalize (Nat.toDigits 16 rgb.toNat).map Char.toUpper = ds at value ⊢
  refine ⟨List.replicate (6 - ds.length) '0' ++ ds, rfl, ?_, (hexValue?_zeros _ ds).trans value⟩
  rw [List.length_append, List.length_replicate]
  omega

theorem rgb?_hex (rgb : UInt32) : Stroke.rgb? (hex rgb) = some rgb := by
  obtain ⟨ds, text, long, value⟩ := hex_eq rgb
  have inner := between?_append ['#'] ds []
  rw [List.append_nil, List.singleton_append, ← text] at inner
  rw [Stroke.rgb?, inner]
  simp only [Option.bind_eq_bind, Option.bind_some, value]
  rw [if_pos ⟨long, rgb.toNat_lt⟩, UInt32.ofNat_toNat]
  rfl

theorem read?_coordinate (x : Float) : read? (coordinate x) = some (told x) := by
  unfold coordinate told
  cases kind : Binary64.ofFloat (trimmed x) with
  | nan =>
    have read : read? "NaN" = some unknown := by rfl
    rw [Layout.render, kind]
    exact read
  | infinite negative =>
    rw [Layout.render, kind, Binary64.of_infinite kind]
    cases negative <;> rfl
  | finite negative m e => exact read?_render plain kind

theorem point?_words (p : Point) :
    Stroke.point? ("(" ++ coordinate p.x ++ ",") (coordinate p.y ++ ")") = some (p.map told) := by
  have x := between?_append ['('] (coordinate p.x).toList [',']
  have y := between?_append [] (coordinate p.y).toList [')']
  simp only [String.ofList_append, String.ofList_toList, String.ofList_nil, String.empty_append]
    at x y
  have before : String.ofList ['('] = "(" := rfl
  have comma : String.ofList [','] = "," := rfl
  have after : String.ofList [')'] = ")" := rfl
  rw [before, comma] at x
  rw [after] at y
  simp [Stroke.point?, x, y, read?_coordinate, Point.map]

/-- A word of a line. -/
def Solid (w : String) : Prop :=
  ' ' ∉ w.toList ∧ '\n' ∉ w.toList

theorem solid_of_all {w : String} {p : Char → Bool} (each : ∀ c ∈ w.toList, p c = true)
    (blank : p ' ' = false) (newline : p '\n' = false) : Solid w :=
  ⟨fun member => Bool.false_ne_true (blank.symm.trans (each _ member)),
    fun member => Bool.false_ne_true (newline.symm.trans (each _ member))⟩

theorem Solid.append {v w : String} (before : Solid v) (after : Solid w) : Solid (v ++ w) := by
  unfold Solid
  rw [String.toList_append, List.mem_append, List.mem_append, not_or, not_or]
  exact ⟨⟨before.1, after.1⟩, ⟨before.2, after.2⟩⟩

theorem solid_coordinate (x : Float) : Solid (coordinate x) := by
  refine solid_of_all (p := Data.isBare) ?_ rfl rfl
  unfold coordinate Layout.render
  cases Binary64.ofFloat (trimmed x) with
  | nan => exact List.all_eq_true.mp rfl
  | infinite negative => cases negative <;> exact List.all_eq_true.mp rfl
  | finite negative m e =>
    dsimp only
    rw [String.toList_ofList]
    exact allBare_write _ _ _

theorem hexDigit?_of_foldlM {ds : List Char} {n m : ℕ}
    (value : ds.foldlM (fun n c => (hexDigit? c).map (16 * n + ·)) n = some m) :
    ∀ c ∈ ds, (hexDigit? c).isSome = true := by
  induction ds generalizing n with
  | nil => exact List.forall_mem_nil _
  | cons d ds ih =>
    rw [List.foldlM_cons, Option.bind_eq_bind, Option.bind_eq_some_iff] at value
    obtain ⟨k, first, others⟩ := value
    refine List.forall_mem_cons.mpr ⟨?_, ih others⟩
    cases digit : hexDigit? d with
    | none => simp [digit] at first
    | some _ => rfl

theorem solid_hex (rgb : UInt32) : Solid (hex rgb) := by
  obtain ⟨ds, text, -, value⟩ := hex_eq rgb
  have digits : Solid (String.ofList ds) := by
    refine solid_of_all (p := fun c => (hexDigit? c).isSome) ?_ rfl rfl
    rw [String.toList_ofList]
    exact hexDigit?_of_foldlM value
  rw [text, ← List.singleton_append, String.ofList_append]
  exact Solid.append ⟨by decide, by decide⟩ digits

theorem solid_point (p : Point) : ∀ w ∈ p.words, Solid w := by
  have x := solid_coordinate p.x
  have y := solid_coordinate p.y
  have opening : Solid "(" := ⟨by decide, by decide⟩
  have comma : Solid "," := ⟨by decide, by decide⟩
  have closing : Solid ")" := ⟨by decide, by decide⟩
  simp [Point.words, (opening.append x).append comma, y.append closing]

theorem solid_words (s : Stroke) : ∀ w ∈ s.words, Solid w := by
  have alone {w : String} (solid : Solid w) : ∀ v ∈ [w], Solid v := by simpa using solid
  cases s with
  | line start finish rgb =>
    exact List.forall_mem_append.mpr ⟨List.forall_mem_append.mpr
      ⟨List.forall_mem_cons.mpr ⟨⟨by decide, by decide⟩, solid_point start⟩,
        List.forall_mem_cons.mpr ⟨⟨by decide, by decide⟩, solid_point finish⟩⟩,
      alone (solid_hex rgb)⟩
  | moveTo point => exact List.forall_mem_cons.mpr ⟨⟨by decide, by decide⟩, solid_point point⟩
  | heading degrees =>
    exact List.forall_mem_cons.mpr ⟨⟨by decide, by decide⟩, alone (solid_coordinate degrees)⟩
  | penUp => simp [Stroke.words, Solid]
  | penDown => simp [Stroke.words, Solid]
  | color rgb => exact List.forall_mem_cons.mpr ⟨⟨by decide, by decide⟩, alone (solid_hex rgb)⟩

theorem display_eq (s : Stroke) : s.display = " ".intercalate s.words := by
  apply String.toList_injective
  rw [String.toList_intercalate]
  cases s <;>
    simp [Stroke.display, Stroke.words, Point.words, Point.display, List.intercalate_cons_cons]

theorem splitOn_intercalate {words : List String} (some : words ≠ [])
    (each : ∀ w ∈ words, Solid w) :
    ((" ".intercalate words).toList.splitOn ' ').map String.ofList = words := by
  rw [String.toList_intercalate]
  have blanks : ∀ w ∈ words.map String.toList, ' ' ∉ w := by
    rw [List.forall_mem_map]
    exact fun w member => (each w member).1
  have split := List.splitOn_intercalate ' ' blanks (by simpa using some)
  have blank : " ".toList = [' '] := rfl
  rw [blank, split]
  simp

theorem newline_intercalate {words : List String} (each : ∀ w ∈ words, '\n' ∉ w.toList) :
    '\n' ∉ (" ".intercalate words).toList := by
  rw [String.toList_intercalate]
  induction words with
  | nil => simp
  | cons w words ih =>
    obtain ⟨first, others⟩ := List.forall_mem_cons.mp each
    cases words with
    | nil => simpa using first
    | cons v words =>
      have after := ih others
      rw [List.map_cons] at after
      rw [List.map_cons, List.map_cons, List.intercalate_cons_cons]
      simp only [List.mem_append, not_or]
      exact ⟨⟨first, by decide⟩, after⟩

theorem newline_display (s : Stroke) : '\n' ∉ s.display.toList := by
  rw [display_eq]
  exact newline_intercalate fun w member => (solid_words s w member).2

theorem displayed?_display (s : Stroke) : Stroke.displayed? s.display = some (s.map told) := by
  have some : s.words ≠ [] := by cases s <;> simp [Stroke.words]
  rw [Stroke.displayed?, display_eq, splitOn_intercalate some (solid_words s)]
  cases s <;> simp [Stroke.words, Point.words, point?_words, rgb?_hex, read?_coordinate, Stroke.map]

end TurtleGraphics
