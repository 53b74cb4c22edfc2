import TurtleGraphics.Data
import TurtleGraphics.Proofs.Tree.Written

/-!
Reading a data file. Blanks count only between quotes, where a backslash is not read. What is
written with a line for each part is read back: behind any blanks a text is read as its value, where
nothing follows that could belong to it.
-/

namespace TurtleGraphics.Data

open Text (span_append)

def isBlank (c : Char) : Bool :=
  c == ' ' || c == '\n' || c == '\t' || c == '\r'

def isBare (c : Char) : Bool :=
  c.isAlphanum || c == '+' || c == '-' || c == '.'

def isQuotable (c : Char) : Bool :=
  decide (' ' ≤ c) && c != '"' && c != '\\'

def skip (cs : List Char) : List Char :=
  cs.dropWhile isBlank

def quoted? (cs : List Char) : Option (String × List Char) :=
  match cs.dropWhile isQuotable with
  | '"' :: rest => some (String.ofList (cs.takeWhile isQuotable), rest)
  | _ => none

variable {α : Type}

/-- Parts with commas between them, and what closes them. -/
def parts? (closing : Char) (part? : List Char → Option (α × List Char)) :
    Nat → List Char → Option (List α × List Char)
  | 0, _ => none
  | n + 1, cs => do
    let (x, rest) ← part? cs
    match skip rest with
    | [] => none
    | c :: rest =>
      if c = ',' then
        let (xs, rest) ← parts? closing part? n rest
        return (x :: xs, rest)
      else if c = closing then return ([x], rest)
      else none

def enclosed? (closing : Char) (part? : List Char → Option (α × List Char)) (n : Nat)
    (cs : List Char) : Option (List α × List Char) :=
  match skip cs with
  | [] => none
  | c :: rest => if c = closing then some ([], rest) else parts? closing part? n cs

def member? (value? : List Char → Option (Data × List Char)) (cs : List Char) :
    Option ((String × Data) × List Char) :=
  match skip cs with
  | '"' :: cs => do
    let (name, rest) ← quoted? cs
    match skip rest with
    | ':' :: rest =>
      let (d, rest) ← value? rest
      return ((name, d), rest)
    | _ => none
  | _ => none

/-- The first value, and what follows it; `n` bounds how deep it goes and how many parts it has. -/
def value? : Nat → List Char → Option (Data × List Char)
  | 0, _ => none
  | n + 1, cs => match skip cs with
    | '"' :: cs => do
      let (text, rest) ← quoted? cs
      return (.word text, rest)
    | '[' :: cs => do
      let (items, rest) ← enclosed? ']' (value? n) n cs
      return (.list items, rest)
    | '\x7b' :: cs => do
      let (fields, rest) ← enclosed? '\x7d' (member? (value? n)) n cs
      return (.record fields, rest)
    | cs =>
      let text := cs.takeWhile isBare
      if text = [] then none else some (.bare (String.ofList text), cs.dropWhile isBare)

def read? (text : String) : Option Data := do
  let (d, rest) ← value? (text.length + 1) text.toList
  if skip rest = [] then return d else none

def AllBare (cs : List Char) : Prop :=
  ∀ c ∈ cs, isBare c = true

theorem allBare_cons {c : Char} {cs : List Char} (bare : isBare c = true) (others : AllBare cs) :
    AllBare (c :: cs) :=
  List.forall_mem_cons.mpr ⟨bare, others⟩

theorem allBare_append {cs ds : List Char} (before : AllBare cs) (after : AllBare ds) :
    AllBare (cs ++ ds) :=
  List.forall_mem_append.mpr ⟨before, after⟩

inductive Legible : Data → Prop
  | bare {text : String} (some : text.toList ≠ []) (each : AllBare text.toList) :
    Legible (.bare text)
  | word {text : String} (each : text.toList.all isQuotable = true) : Legible (.word text)
  | record {fields : List (String × Data)}
    (names : ∀ f ∈ fields, f.1.toList.all isQuotable = true)
    (each : ∀ f ∈ fields, Legible f.2) : Legible (.record fields)
  | list {items : List Data} (each : ∀ d ∈ items, Legible d) : Legible (.list items)

def Blank (gap : List Char) : Prop :=
  ∀ c ∈ gap, isBlank c = true

theorem skip_append {gap : List Char} (blank : Blank gap) (cs : List Char) :
    skip (gap ++ cs) = skip cs :=
  List.dropWhile_append_of_pos blank

theorem skip_cons {c : Char} (visible : isBlank c = false) (cs : List Char) :
    skip (c :: cs) = c :: cs :=
  List.dropWhile_cons_of_neg (by simp [visible])

def Ends (rest : List Char) : Prop :=
  ∀ c ∈ rest.head?, isBare c = false

theorem ends_cons {c : Char} (other : isBare c = false) (cs : List Char) : Ends (c :: cs) := by
  rintro d ⟨⟩
  exact other

theorem ends_append {gap : List Char} (blank : Blank gap) {rest : List Char} (ends : Ends rest) :
    Ends (gap ++ rest) := by
  cases gap with
  | nil => exact ends
  | cons c gap =>
    refine ends_cons ?_ _
    have space := blank c List.mem_cons_self
    simp only [isBlank, Bool.or_eq_true, beq_iff_eq] at space
    obtain ((rfl | rfl) | rfl) | rfl := space <;> rfl

def Closes (c : Char) : Prop :=
  c = ']' ∨ c = '\x7d'

theorem Closes.plain {c : Char} (closes : Closes c) :
    isBare c = false ∧ isBlank c = false ∧ c ≠ ',' := by
  obtain rfl | rfl := closes <;> decide

structure Reads (part? : List Char → Option (α × List Char)) (text : List Char) (x : α) :
    Prop where
  starts : ∃ c ∈ text.head?, isBlank c = false ∧ ¬ Closes c
  reads : ∀ gap rest, Blank gap → Ends rest → part? (gap ++ (text ++ rest)) = some (x, rest)

theorem quoted?_quote {text : String} (each : text.toList.all isQuotable = true)
    (rest : List Char) : quoted? (text.toList ++ '"' :: rest) = some (text, rest) := by
  have quote : ∀ c ∈ ('"' :: rest).head?, isQuotable c = false := by simp [isQuotable]
  obtain ⟨before, after⟩ := span_append (List.all_eq_true.mp each) quote
  simp [quoted?, before, after]

section Parts

variable {part? : List Char → Option (α × List Char)} {closing : Char} {gap last : List Char}
  {n : Nat}

theorem parts?_intercalate {text : α → List Char} {xs : List α} (closes : Closes closing)
    (blank : Blank gap) (after : Blank last) (some : xs ≠ [])
    (reads : ∀ x ∈ xs, Reads part? (text x) x) (enough : xs.length ≤ n) (rest : List Char) :
    parts? closing part? n
        (gap ++ ((',' :: gap).intercalate (xs.map text) ++ (last ++ closing :: rest))) =
      .some (xs, rest) := by
  obtain ⟨ending, visible, other⟩ := closes.plain
  induction xs generalizing n with
  | nil => exact absurd rfl some
  | cons x xs ih =>
    obtain ⟨n, rfl⟩ := Nat.exists_eq_add_of_le' (Nat.one_le_of_lt enough)
    obtain ⟨first, others⟩ := List.forall_mem_cons.mp reads
    cases xs with
    | nil =>
      have ends := ends_append after (ends_cons ending rest)
      have read := first.reads gap _ blank ends
      simp only [List.map_cons, List.map_nil, List.intercalate_singleton, parts?, read,
        Option.bind_eq_bind, Option.bind_some, skip_append after, skip_cons visible]
      simp [other]
    | cons y ys =>
      have comma : isBlank ',' = false := rfl
      have ends : Ends (',' :: (gap ++ ((',' :: gap).intercalate ((y :: ys).map text) ++
          (last ++ closing :: rest)))) := ends_cons rfl _
      have read := first.reads gap _ blank ends
      have further := ih (List.cons_ne_nil y ys) others (Nat.le_of_succ_le_succ enough)
      have joined :
          (',' :: gap).intercalate ((x :: y :: ys).map text) ++ (last ++ closing :: rest) =
            text x ++ ',' :: (gap ++ ((',' :: gap).intercalate ((y :: ys).map text) ++
            (last ++ closing :: rest))) := by
        simp [List.intercalate_cons_cons]
      rw [joined]
      simp only [parts?, read, further, Option.bind_eq_bind, Option.bind_some, skip_cons comma,
        if_true]
      rfl

theorem length_intercalate {sep : List Char} (some : sep ≠ []) (texts : List (List Char)) :
    texts.length ≤ (sep.intercalate texts).length + 1 ∧
      ∀ t ∈ texts, t.length ≤ (sep.intercalate texts).length := by
  have positive : 0 < sep.length := List.length_pos_iff.mpr some
  induction texts with
  | nil => simp
  | cons t texts ih =>
    cases texts with
    | nil => simp
    | cons u texts =>
      obtain ⟨count, each⟩ := ih
      rw [List.intercalate_cons_cons, List.length_append, List.length_append]
      constructor
      · simp only [List.length_cons] at count ⊢
        omega
      · rw [List.forall_mem_cons]
        refine ⟨by omega, fun v member => ?_⟩
        have le := each v member
        omega

def margin (level : Nat) : List Char :=
  '\n' :: List.replicate (2 * level) ' '

theorem blank_margin (level : Nat) : Blank (margin level) := by
  intro c member
  obtain rfl | member := List.mem_cons.mp member
  · rfl
  · rw [List.eq_of_mem_replicate member]
    rfl

theorem toList_enclose (level : Nat) (opening closing : String) {parts : List String}
    (some : parts ≠ []) : (enclose level opening closing parts).toList =
      opening.toList ++ (margin (level + 1) ++ ((',' :: margin (level + 1)).intercalate
        (parts.map String.toList) ++ (margin level ++ closing.toList))) := by
  have spaces (k : Nat) : (indent k).toList = List.replicate (2 * k) ' ' :=
    Tree.toList_margin (2 * k)
  have filled : parts.isEmpty = false := List.isEmpty_eq_false_iff.mpr some
  simp [enclose, filled, margin, spaces, String.toList_intercalate]

theorem exists_intercalate (sep text : List Char) (texts : List (List Char)) :
    ∃ tail, sep.intercalate (text :: texts) = text ++ tail := by
  cases texts with
  | nil => exact ⟨[], by simp⟩
  | cons u texts => exact ⟨_, by rw [List.intercalate_cons_cons, List.append_assoc]⟩

theorem enclosed?_of_starts {cs text rest : List Char} (closes : Closes closing) (blank : Blank gap)
    (starts : ∃ c ∈ text.head?, isBlank c = false ∧ ¬ Closes c)
    (same : cs = gap ++ (text ++ rest)) :
    enclosed? closing part? n cs = parts? closing part? n cs := by
  obtain ⟨c, first, visible, other⟩ := starts
  obtain ⟨text, rfl⟩ := List.head?_eq_some_iff.mp first
  have skipped : skip cs = c :: (text ++ rest) := by
    rw [same, skip_append blank, List.cons_append, skip_cons visible]
  unfold enclosed?
  rw [skipped]
  refine if_neg ?_
  rintro rfl
  exact other closes

theorem enclosed?_enclose {level : Nat} {left right : String} (opening : Char) {text : α → String}
    {xs : List α} (opens : left.toList = [opening]) (shuts : right.toList = [closing])
    (closes : Closes closing)
    (reads : ∀ x ∈ xs, (text x).toList.length < n → Reads part? (text x).toList x)
    (fits : (enclose level left right (xs.map text)).toList.length ≤ n + 1) :
    ∃ inside, (enclose level left right (xs.map text)).toList = opening :: inside ∧
      ∀ rest, enclosed? closing part? n (inside ++ rest) = .some (xs, rest) := by
  obtain ⟨-, visible, -⟩ := closes.plain
  cases xs with
  | nil =>
    refine ⟨[closing], by simp [enclose, opens, shuts], fun rest => ?_⟩
    simp [enclosed?, skip_cons visible]
  | cons x xs =>
    have some : (x :: xs).map text ≠ [] := List.cons_ne_nil _ _
    have whole := toList_enclose level left right some
    rw [opens, shuts, List.map_map, List.singleton_append] at whole
    refine ⟨_, whole, fun rest => ?_⟩
    have blank := blank_margin (level + 1)
    obtain ⟨count, each⟩ := length_intercalate (List.cons_ne_nil ',' (margin (level + 1)))
      ((x :: xs).map (String.toList ∘ text))
    rw [whole] at fits
    simp only [List.length_append, List.length_cons, List.length_map, margin] at fits count
    have read : ∀ y ∈ x :: xs, Reads part? ((String.toList ∘ text) y) y := by
      intro y member
      have le := each _ (List.mem_map_of_mem member)
      refine reads y member ?_
      simp only [margin, Function.comp_apply] at le fits
      omega
    obtain ⟨tail, first⟩ := exists_intercalate (',' :: margin (level + 1)) (text x).toList
      (xs.map (String.toList ∘ text))
    have starts := (read x List.mem_cons_self).starts
    have parts := parts?_intercalate closes blank (blank_margin level) (List.cons_ne_nil x xs) read
      (n := n) (by simp only [List.length_cons]; omega) rest
    have chars : margin (level + 1) ++ ((',' :: margin (level + 1)).intercalate
          ((x :: xs).map (String.toList ∘ text)) ++ (margin level ++ closing :: rest)) =
        margin (level + 1) ++ ((text x).toList ++ (tail ++ (margin level ++ closing :: rest))) := by
      rw [List.map_cons, Function.comp_apply, first, List.append_assoc]
    simp only [List.append_assoc, List.cons_append, List.nil_append]
    rw [enclosed?_of_starts closes blank starts chars]
    exact parts

end Parts

theorem ne_of_isBare {c d : Char} (bare : isBare c = true) (other : isBare d = false) : c ≠ d := by
  rintro rfl
  exact Bool.false_ne_true (other.symm.trans bare)

theorem isBlank_of_isBare {c : Char} (bare : isBare c = true) : isBlank c = false := by
  refine Bool.eq_false_iff.mpr fun blank => ?_
  simp only [isBlank, Bool.or_eq_true, beq_iff_eq] at blank
  obtain ((rfl | rfl) | rfl) | rfl := blank <;> exact absurd bare (by decide)

theorem Reads.of_cons {part? : List Char → Option (α × List Char)} {c : Char} {inside : List Char}
    {x : α} (skips : ∀ gap cs, Blank gap → part? (gap ++ cs) = part? cs)
    (visible : isBlank c = false) (other : ¬ Closes c)
    (read : ∀ rest, Ends rest → part? (c :: (inside ++ rest)) = some (x, rest)) :
    Reads part? (c :: inside) x where
  starts := ⟨c, rfl, visible, other⟩
  reads gap rest blank ends := by
    rw [skips gap _ blank, List.cons_append]
    exact read rest ends

variable {level n : Nat}

theorem value?_skips (gap cs : List Char) (blank : Blank gap) :
    value? n (gap ++ cs) = value? n cs := by
  cases n with
  | zero => rfl
  | succ n => simp only [value?, skip_append blank]

theorem member?_skips {value? : List Char → Option (Data × List Char)} (gap cs : List Char)
    (blank : Blank gap) : member? value? (gap ++ cs) = member? value? cs := by
  simp only [member?, skip_append blank]

theorem reads_bare {text : String} (some : text.toList ≠ []) (each : AllBare text.toList) :
    Reads (value? (n + 1)) text.toList (.bare text) := by
  obtain ⟨c, cs, chars⟩ := List.exists_cons_of_ne_nil some
  have bare := each c (by rw [chars]; exact List.mem_cons_self)
  have visible := isBlank_of_isBare bare
  have other : ¬ Closes c := not_or.mpr ⟨ne_of_isBare bare rfl, ne_of_isBare bare rfl⟩
  rw [chars]
  refine .of_cons value?_skips visible other fun rest ends => ?_
  obtain ⟨before, after⟩ := span_append each ends
  rw [chars, List.cons_append] at before after
  rw [value?, skip_cons visible]
  split
  · rename_i same
    exact absurd (List.cons.inj same).1 (ne_of_isBare bare rfl)
  · rename_i same
    exact absurd (List.cons.inj same).1 (ne_of_isBare bare rfl)
  · rename_i same
    exact absurd (List.cons.inj same).1 (ne_of_isBare bare rfl)
  · dsimp only
    rw [before, after, ← chars, String.ofList_toList, if_neg some]

theorem toList_quote (text : String) : (quote text).toList = '"' :: (text.toList ++ ['"']) := by
  simp [quote]

theorem reads_word {text : String} (each : text.toList.all isQuotable = true) :
    Reads (value? (n + 1)) (quote text).toList (.word text) := by
  rw [toList_quote]
  refine .of_cons value?_skips rfl (by simp [Closes]) fun rest _ => ?_
  simp [value?, skip_cons, isBlank, quoted?_quote each]

theorem reads_member {f : String × Data} {text : String}
    (name : f.1.toList.all isQuotable = true) (value : Reads (value? n) text.toList f.2) :
    Reads (member? (value? n)) (field f.1 ": " text).toList f := by
  have chars : (field f.1 ": " text).toList =
      '"' :: (f.1.toList ++ '"' :: ':' :: ' ' :: text.toList) := by
    simp [field, quote]
  rw [chars]
  refine .of_cons member?_skips rfl (by simp [Closes]) fun rest ends => ?_
  have space : Blank [' '] := by simp [Blank, isBlank]
  have read : value? n (' ' :: (text.toList ++ rest)) = some (f.2, rest) :=
    value.reads [' '] rest space ends
  simp [member?, skip_cons, isBlank, quoted?_quote name, read]

theorem prettyItems_eq (level : Nat) (items : List Data) :
    prettyItems level items = items.map (prettyFrom level) := by
  induction items with
  | nil => rfl
  | cons d items ih => rw [prettyItems, ih, List.map_cons]

theorem prettyFields_eq (level : Nat) (fields : List (String × Data)) :
    prettyFields level fields = fields.map fun f => field f.1 ": " (f.2.prettyFrom level) := by
  induction fields with
  | nil => rfl
  | cons f fields ih => rw [prettyFields, ih, List.map_cons]

theorem Legible.reads {d : Data} (legible : Legible d)
    (enough : (d.prettyFrom level).toList.length ≤ n) :
    Reads (value? (n + 1)) (d.prettyFrom level).toList d := by
  induction legible generalizing level n with
  | bare some each => exact reads_bare some each
  | word each => exact reads_word each
  | @record fields names each ih =>
    rw [prettyFrom, prettyFields_eq] at enough ⊢
    have entries : ∀ f ∈ fields, (field f.1 ": " (f.2.prettyFrom (level + 1))).toList.length < n →
        Reads (member? (value? n)) (field f.1 ": " (f.2.prettyFrom (level + 1))).toList f := by
      intro f member less
      obtain ⟨k, rfl⟩ := Nat.exists_eq_add_of_le' (Nat.one_le_of_lt less)
      have shorter : (f.2.prettyFrom (level + 1)).toList.length ≤ k := by
        simp only [field, String.toList_append, List.length_append] at less
        omega
      exact reads_member (names f member) (ih f member shorter)
    obtain ⟨inside, chars, read⟩ := enclosed?_enclose '\x7b' rfl rfl (.inr rfl) entries
      (Nat.le_succ_of_le enough)
    rw [chars]
    refine .of_cons value?_skips rfl (by simp [Closes]) fun rest _ => ?_
    simp [value?, skip_cons, isBlank, read]
  | @list items each ih =>
    rw [prettyFrom, prettyItems_eq] at enough ⊢
    have parts : ∀ d ∈ items, (d.prettyFrom (level + 1)).toList.length < n →
        Reads (value? n) (d.prettyFrom (level + 1)).toList d := by
      intro d member less
      obtain ⟨k, rfl⟩ := Nat.exists_eq_add_of_le' (Nat.one_le_of_lt less)
      exact ih d member (Nat.le_of_lt_succ less)
    obtain ⟨inside, chars, read⟩ := enclosed?_enclose '[' rfl rfl (.inl rfl) parts
      (Nat.le_succ_of_le enough)
    rw [chars]
    refine .of_cons value?_skips rfl (by simp [Closes]) fun rest _ => ?_
    simp [value?, skip_cons, isBlank, read]

/-- What is written is read back. -/
theorem read?_pretty {d : Data} (legible : Legible d) : read? d.pretty = some d := by
  have reads := (legible.reads (le_refl (d.prettyFrom 0).toList.length)).reads
  have whole := reads [] [] (by simp [Blank]) (by simp [Ends])
  rw [List.nil_append, List.append_nil] at whole
  rw [read?, pretty, ← String.length_toList, whole]
  rfl

/-- On one line, and with blanks between any two parts. -/
example : read? " [1.5 ,\x7b\"x\":[] \x7d]" =
    some (.list [.bare "1.5", .record [("x", .list [])]]) := by
  rfl

end TurtleGraphics.Data
