import TurtleGraphics.CommandLine.Options
import TurtleGraphics.Decimal.Literal

/-!
What arguments say. They are read as items of one or two words, which are switches, speeds and
files, up to a plea for help or to words that cannot be read. Of several speeds the last one counts,
and otherwise the order of the items says nothing.
-/

namespace TurtleGraphics.CommandLine

structure Denotes (text : String) (n : Nat) : Prop where
  spelt : ∃ digits, digits ≠ [] ∧ (∀ c ∈ digits, c.isDigit) ∧ Decimal.valueOf digits = n ∧
    (text.toList = digits ∨ text.toList = '+' :: digits)
  range : n ≤ 255

def IsOption (word : String) : Prop :=
  ['-'] <+: word.toList

instance (word : String) : Decidable (IsOption word) :=
  inferInstanceAs (Decidable (['-'] <+: word.toList))

inductive Switch
  | tokens
  | plain
  | tree
  | json
  | verbose
deriving DecidableEq

def Switch.words : Switch → List String
  | tokens => ["--tokens"]
  | plain => ["--no-color"]
  | tree => ["--ast"]
  | json => ["--json"]
  | verbose => ["--verbose", "-v"]

def helpWords : List String :=
  ["--help", "-h"]

inductive Known : String → Prop
  | speed : Known "--speed"
  | help {word : String} (asks : word ∈ helpWords) : Known word
  | switch {s : Switch} {word : String} (spelt : word ∈ s.words) : Known word

inductive Item
  | switch (s : Switch) (word : String)
  | speed (n : Nat) (text : String)
  | file (name : String)

namespace Item

def words : Item → List String
  | switch _ word => [word]
  | speed _ text => ["--speed", text]
  | file name => [name]

def switch? : Item → Option Switch
  | switch s _ => some s
  | _ => none

def speed? : Item → Option Nat
  | speed n _ => some n
  | _ => none

def file? : Item → Option String
  | file name => some name
  | _ => none

inductive Valid : Item → Prop
  | switch {s : Switch} {word : String} (spelt : word ∈ s.words) : Valid (.switch s word)
  | speed {n : Nat} {text : String} (denotes : Denotes text n) (range : n ≤ 100) :
    Valid (.speed n text)
  | file {name : String} (plain : ¬ IsOption name) : Valid (.file name)

end Item

def wordsOf (said : List Item) : List String :=
  said.flatMap Item.words

def filesOf (said : List Item) : List String :=
  said.filterMap Item.file?

def optionsOf (said : List Item) : Options :=
  let on (s : Switch) : Bool := said.filterMap Item.switch? |>.contains s
  { tokens := on .tokens
    plain := on .plain
    tree := on .tree
    json := on .json
    verbose := on .verbose
    speed := (said.filterMap Item.speed?).getLast?
    file := (filesOf said).head? }

structure Item.Fits (i : Item) (said : List Item) : Prop where
  valid : i.Valid
  free : i.file? = none ∨ filesOf said = []

structure Sayable (said : List Item) : Prop where
  valid : ∀ i ∈ said, i.Valid
  one : (filesOf said).length ≤ 1

inductive Fault (said : List Item) : List String → OptionError → Prop
  | missing : Fault said ["--speed"] .missingSpeed
  | invalid {text : String} {e : NumberError} {rest : List String} (none : ∀ n, ¬ Denotes text n)
    (cause : byte text = .error e) : Fault said ("--speed" :: text :: rest) (.invalidSpeed text e)
  | range {text : String} {n : Nat} {rest : List String} (denotes : Denotes text n)
    (above : 100 < n) : Fault said ("--speed" :: text :: rest) (.speedRange n)
  | unknown {word : String} {rest : List String} (option : IsOption word)
    (unknown : ¬ Known word) : Fault said (word :: rest) (.unknownOption word)
  | second {word : String} {rest : List String} (plain : ¬ IsOption word)
    (named : filesOf said ≠ []) : Fault said (word :: rest) .secondFile

inductive Heard (words : List String) : Except OptionError Options → Prop
  | all {said : List Item} (sayable : Sayable said) (whole : words = wordsOf said) :
    Heard words (.ok (optionsOf said))
  | help {said : List Item} {word : String} {rest : List String} (sayable : Sayable said)
    (asks : word ∈ helpWords) (whole : words = wordsOf said ++ word :: rest) :
    Heard words (.ok { optionsOf said with file := none })
  | fault {said : List Item} {rest : List String} {e : OptionError} (sayable : Sayable said)
    (fault : Fault said rest e) (whole : words = wordsOf said ++ rest) : Heard words (.error e)

theorem le_valueFrom (n : Nat) (cs : List Char) :
    n ≤ cs.foldl (fun n c => 10 * n + (c.toNat - '0'.toNat)) n := by
  induction cs generalizing n with
  | nil => exact Nat.le_refl n
  | cons c cs ih =>
    have more : n ≤ 10 * n + (c.toNat - '0'.toNat) := by omega
    exact Nat.le_trans more (ih _)

/-- A number that has become too large stays too large, so the digits behind it do not matter. -/
theorem byteFrom_eq_ok_iff {n k : Nat} {cs : List Char} (small : n ≤ 255) :
    byteFrom n cs = .ok k ↔ (∀ c ∈ cs, c.isDigit) ∧
      cs.foldl (fun n c => 10 * n + (c.toNat - '0'.toNat)) n = k ∧ k ≤ 255 := by
  induction cs generalizing n with
  | nil =>
    constructor
    · intro same
      cases same
      exact ⟨by simp, rfl, small⟩
    · rintro ⟨-, rfl, -⟩
      rfl
  | cons c cs ih =>
    have grows := le_valueFrom (10 * n + (c.toNat - '0'.toNat)) cs
    simp only [byteFrom, List.forall_mem_cons, List.foldl_cons]
    split
    · rename_i digit
      split
      · rename_i large
        constructor
        · intro impossible
          cases impossible
        · rintro ⟨-, rfl, bound⟩
          omega
      · rename_i next
        rw [ih (by omega)]
        simp [digit]
    · rename_i other
      simp [other]

theorem byte_eq_ok_iff {text : String} {n : Nat} : byte text = .ok n ↔ Denotes text n := by
  constructor
  · intro h
    unfold byte at h
    split at h
    · cases h
    · cases h
    · rename_i cs alone spelt
      obtain ⟨digits, value, range⟩ := (byteFrom_eq_ok_iff (Nat.zero_le 255)).mp h
      refine ⟨⟨cs, ?_, digits, value, .inr spelt⟩, range⟩
      rintro rfl
      exact alone rfl
    · rename_i empty _ _
      obtain ⟨digits, value, range⟩ := (byteFrom_eq_ok_iff (Nat.zero_le 255)).mp h
      exact ⟨⟨text.toList, empty, digits, value, .inl rfl⟩, range⟩
  · rintro ⟨⟨digits, some, all, value, spelt⟩, range⟩
    have read : byteFrom 0 digits = .ok n :=
      (byteFrom_eq_ok_iff (Nat.zero_le 255)).mpr ⟨all, value, range⟩
    obtain ⟨c, cs, rfl⟩ := List.exists_cons_of_ne_nil some
    have unsigned : c ≠ '+' := by
      rintro rfl
      exact absurd (all '+' (List.mem_cons_self ..)) (by decide)
    unfold byte
    rcases spelt with spelt | spelt
    · rw [spelt]
      split
      · rename_i e
        cases e
      · rename_i e
        exact absurd (List.cons.inj e).1 unsigned
      · rename_i e
        exact absurd (List.cons.inj e).1 unsigned
      · exact read
    · rw [spelt]
      exact read

/-- What the options become with one more item. -/
def Options.hear (o : Options) : Item → Options
  | .switch .tokens _ => { o with tokens := true }
  | .switch .plain _ => { o with plain := true }
  | .switch .tree _ => { o with tree := true }
  | .switch .json _ => { o with json := true }
  | .switch .verbose _ => { o with verbose := true }
  | .speed n _ => { o with speed := some n }
  | .file name => { o with file := some name }

@[simp] theorem wordsOf_concat (said : List Item) (i : Item) :
    wordsOf (said ++ [i]) = wordsOf said ++ i.words := by
  simp [wordsOf]

theorem filesOf_concat (said : List Item) (i : Item) :
    filesOf (said ++ [i]) = filesOf said ++ i.file?.toList := by
  cases i <;> simp [filesOf, Item.file?]

theorem optionsOf_concat {said : List Item} {i : Item} (free : i.file? = none ∨ filesOf said = []) :
    optionsOf (said ++ [i]) = (optionsOf said).hear i := by
  have files : (filesOf (said ++ [i])).head? = (filesOf said).head?.or i.file? := by
    rw [filesOf_concat, List.head?_append]
    cases i.file? <;> rfl
  simp only [optionsOf, files]
  cases i with
  | switch s word => cases s <;> simp [Options.hear, Item.switch?, Item.speed?, Item.file?]
  | speed n text => simp [Options.hear, Item.switch?, Item.speed?, Item.file?]
  | file name =>
    have none : filesOf said = [] := free.resolve_left (by simp [Item.file?])
    simp [Options.hear, Item.switch?, Item.speed?, Item.file?, none]

theorem Known.isOption {word : String} (known : Known word) : IsOption word := by
  cases known with
  | speed => simp [IsOption]
  | help asks =>
    simp only [helpWords, List.mem_cons, List.not_mem_nil, or_false] at asks
    rcases asks with rfl | rfl <;> simp [IsOption]
  | @switch s word spelt =>
    cases s <;> simp only [Switch.words, List.mem_cons, List.not_mem_nil, or_false] at spelt
    case verbose => rcases spelt with rfl | rfl <;> simp [IsOption]
    all_goals
      subst spelt
      simp [IsOption]

/-- A word that the program does not know is an option it cannot read, or the name of a file. -/
theorem readFrom_unknown {word : String} (unknown : ¬ Known word) (o : Options)
    (rest : List String) : readFrom o (word :: rest) =
      if IsOption word then .error (.unknownOption word)
      else if o.file.isSome then .error .secondFile
      else readFrom { o with file := some word } rest := by
  have speed : word ≠ "--speed" := by
    rintro rfl
    exact unknown .speed
  have help : word ∉ helpWords := fun asks => unknown (.help asks)
  have switch (s : Switch) : word ∉ s.words := fun spelt => unknown (.switch spelt)
  have tokens := switch .tokens
  have plain := switch .plain
  have tree := switch .tree
  have json := switch .json
  have verbose := switch .verbose
  have option : word.startsWith "-" = decide (IsOption word) := by
    rw [Bool.eq_iff_iff, decide_eq_true_iff]
    simp [IsOption]
  simp only [helpWords, Switch.words, List.mem_cons, List.not_mem_nil, or_false] at *
  rw [readFrom] <;> simp [*]

theorem readFrom_item {i : Item} (valid : i.Valid) {o : Options}
    (free : i.file? = none ∨ o.file = none) (rest : List String) :
    readFrom o (i.words ++ rest) = readFrom (o.hear i) rest := by
  cases valid with
  | @switch s word spelt =>
    cases s with
    | tokens | plain | tree | json =>
      cases List.mem_singleton.mp spelt
      simp [readFrom, Item.words, Options.hear]
    | verbose =>
      simp only [Switch.words, List.mem_cons, List.not_mem_nil, or_false] at spelt
      rcases spelt with rfl | rfl <;> simp [readFrom, Item.words, Options.hear]
  | @speed n text denotes range =>
    have value : speed text = .ok n := by
      simp only [speed, byte_eq_ok_iff.mpr denotes]
      simp [Nat.not_lt_of_le range, pure, Except.pure]
    simp only [Item.words, List.cons_append, List.nil_append, readFrom, value]
    rfl
  | @file name plain =>
    have none : o.file = none := free.resolve_left (by simp [Item.file?])
    have unknown : ¬ Known name := fun known => plain known.isOption
    simp [Item.words, readFrom_unknown unknown, Options.hear, plain, none]

theorem Sayable.nil : Sayable [] :=
  ⟨by simp, by simp [filesOf]⟩

theorem Sayable.concat {said : List Item} {i : Item} (sayable : Sayable said)
    (fits : i.Fits said) : Sayable (said ++ [i]) where
  valid := by simpa [or_imp, forall_and] using ⟨sayable.valid, fits.valid⟩
  one := by
    rw [filesOf_concat]
    rcases fits.free with none | none
    · simpa [none] using sayable.one
    · rw [none, List.nil_append]
      cases i.file? <;> simp

theorem Sayable.next {before said : List Item} {i : Item}
    (sayable : Sayable (before ++ i :: said)) : i.Fits before where
  valid := sayable.valid i (by simp)
  free := by
    have one := sayable.one
    cases named : i.file? with
    | none => exact .inl rfl
    | some name =>
      simp only [filesOf, List.filterMap_append, List.filterMap_cons, named, List.length_append,
        List.length_cons] at one
      have none : (filesOf before).length = 0 := by
        simp only [filesOf]
        omega
      exact .inr (List.length_eq_zero_iff.mp none)

theorem readFrom_next {said : List Item} {i : Item} (fits : i.Fits said) (rest : List String) :
    readFrom (optionsOf said) (i.words ++ rest) = readFrom (optionsOf (said ++ [i])) rest := by
  rw [optionsOf_concat fits.free]
  refine readFrom_item fits.valid (fits.free.imp_right fun none => ?_) rest
  simp [optionsOf, none]

theorem readFrom_items {before said : List Item} (sayable : Sayable (before ++ said))
    (rest : List String) :
    readFrom (optionsOf before) (wordsOf said ++ rest) =
      readFrom (optionsOf (before ++ said)) rest := by
  induction said generalizing before with
  | nil => simp [wordsOf]
  | cons i said ih =>
    have whole : before ++ [i] ++ said = before ++ i :: said := by simp
    have later := ih (whole ▸ sayable)
    have words : wordsOf (i :: said) ++ rest = i.words ++ (wordsOf said ++ rest) := by
      simp [wordsOf]
    rw [words, readFrom_next sayable.next, later, whole]

theorem read_items {said : List Item} (sayable : Sayable said) (rest : List String) :
    read (wordsOf said ++ rest) = readFrom (optionsOf said) rest :=
  @readFrom_items [] said sayable rest

theorem readFrom_help {word : String} (asks : word ∈ helpWords) (o : Options)
    (rest : List String) : readFrom o (word :: rest) = .ok { o with file := none } := by
  simp only [helpWords, List.mem_cons, List.not_mem_nil, or_false] at asks
  rcases asks with rfl | rfl <;> simp [readFrom]

theorem readFrom_fault {said : List Item} {rest : List String} {e : OptionError}
    (fault : Fault said rest e) : readFrom (optionsOf said) rest = .error e := by
  cases fault with
  | missing => rfl
  | @invalid text e rest none cause =>
    have refused : speed text = .error (.invalidSpeed text e) := by
      simp only [speed, cause]
      rfl
    simp only [readFrom, refused]
    rfl
  | @range text n rest denotes above =>
    have refused : speed text = .error (.speedRange n) := by
      simp only [speed, byte_eq_ok_iff.mpr denotes, if_pos above]
      rfl
    simp only [readFrom, refused]
    rfl
  | unknown option unknown => rw [readFrom_unknown unknown, if_pos option]
  | second plain named =>
    have unknown := fun known : Known _ => plain known.isOption
    have taken : (optionsOf said).file.isSome := by
      simp only [optionsOf, List.isSome_head?]
      simpa using named
    rw [readFrom_unknown unknown, if_neg plain, if_pos taken]

inductive Begins (said : List Item) : List String → Prop
  | nothing : Begins said []
  | item {i : Item} {rest : List String} (fits : i.Fits said) : Begins said (i.words ++ rest)
  | help {word : String} {rest : List String} (asks : word ∈ helpWords) :
    Begins said (word :: rest)
  | fault {words : List String} {e : OptionError} (fault : Fault said words e) : Begins said words

theorem begins_speed (said : List Item) (text : String) (rest : List String) :
    Begins said ("--speed" :: text :: rest) := by
  cases value : byte text with
  | error e =>
    refine .fault (.invalid (fun n denotes => ?_) value)
    rw [byte_eq_ok_iff.mpr denotes] at value
    cases value
  | ok n =>
    have denotes := byte_eq_ok_iff.mp value
    by_cases above : 100 < n
    · exact .fault (.range denotes above)
    · exact .item (i := .speed n text) ⟨.speed denotes (Nat.le_of_not_lt above), .inl rfl⟩

theorem begins (said : List Item) (words : List String) : Begins said words := by
  cases words with
  | nil => exact .nothing
  | cons word rest =>
    by_cases known : Known word
    · cases known with
      | speed =>
        cases rest with
        | nil => exact .fault .missing
        | cons text rest => exact begins_speed said text rest
      | help asks => exact .help asks
      | @switch s word spelt => exact .item (i := .switch s word) ⟨.switch spelt, .inl rfl⟩
    · by_cases option : IsOption word
      · exact .fault (.unknown option known)
      · by_cases named : filesOf said = []
        · exact .item (i := .file word) ⟨.file option, .inr named⟩
        · exact .fault (.second option named)

theorem Item.words_ne_nil (i : Item) : i.words ≠ [] := by
  cases i <;> simp [words]

theorem heard_readFrom {said : List Item} (sayable : Sayable said) (rest : List String) :
    Heard (wordsOf said ++ rest) (readFrom (optionsOf said) rest) := by
  -- on the number of words, for an item takes one or two of them
  induction h : rest.length using Nat.strongRecOn generalizing said rest with
  | ind n ih =>
    cases begins said rest with
    | nothing => exact .all sayable (by simp)
    | @item i rest fits =>
      have shorter : rest.length < n := by
        have some := List.length_pos_iff.mpr i.words_ne_nil
        rw [← h, List.length_append]
        omega
      have heard := ih rest.length shorter (sayable.concat fits) rest rfl
      rw [readFrom_next fits, ← List.append_assoc, ← wordsOf_concat]
      exact heard
    | help asks =>
      rw [readFrom_help asks]
      exact .help sayable asks rfl
    | fault fault =>
      rw [readFrom_fault fault]
      exact .fault sayable fault rfl

theorem read_eq_iff {words : List String} {r : Except OptionError Options} :
    read words = r ↔ Heard words r := by
  constructor
  · rintro rfl
    exact heard_readFrom .nil words
  · intro heard
    cases heard with
    | @all said sayable whole =>
      rw [whole, ← List.append_nil (wordsOf said), read_items sayable]
      rfl
    | @help said word rest sayable asks whole =>
      rw [whole, read_items sayable, readFrom_help asks]
    | @fault said rest e sayable fault whole =>
      rw [whole, read_items sayable, readFrom_fault fault]

/-- What stands behind `--speed` is its value, whatever it looks like. -/
example : read ["--speed", "--help"] = .error (.invalidSpeed "--help" .invalidDigit) := rfl

variable {said others : List Item}

theorem Sayable.perm (sayable : Sayable said) (same : said.Perm others) : Sayable others where
  valid i member := sayable.valid i (same.mem_iff.mpr member)
  one := by
    have files : (filesOf said).Perm (filesOf others) := same.filterMap _
    exact files.length_eq ▸ sayable.one

theorem filesOf_perm (sayable : Sayable said) (same : said.Perm others) :
    filesOf others = filesOf said := by
  have files : (filesOf said).Perm (filesOf others) := same.filterMap _
  have one := sayable.one
  generalize filesOf said = named at files one
  match named with
  | [] => exact List.nil_perm.mp files
  | [file] => exact List.singleton_perm.mp files |>.symm
  | _ :: _ :: _ => simp at one

/-- In another order the items ask for the same, but for the speed. -/
theorem optionsOf_perm (sayable : Sayable said) (same : said.Perm others) :
    optionsOf others = { optionsOf said with speed := (optionsOf others).speed } := by
  have switches (s : Switch) : (others.filterMap Item.switch?).contains s =
      (said.filterMap Item.switch?).contains s :=
    (same.symm.filterMap Item.switch?).contains_eq
  simp only [optionsOf, switches, filesOf_perm sayable same]

end TurtleGraphics.CommandLine
