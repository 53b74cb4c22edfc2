import TurtleGraphics.Proofs.CommandLine.Arguments
import TurtleGraphics.Proofs.CommandLine.Printed
import TurtleGraphics.Proofs.Run.Quiet
import TurtleGraphics.Proofs.Token.Delivery

/-!
How the program ends. Its arguments can be wrong, or the name of the file, or the file, or the text
of it, or the run, in this order; where nothing is wrong it prints one thing, and otherwise nothing.
The order of the options does not matter, of which a speed can only keep the program from ending.
-/

namespace TurtleGraphics.CommandLine

/-- What follows the last dot of the file's name, with something in front of the dot. -/
def HasExtension (path ending : String) : Prop :=
  ∃ stem, stem ≠ [] ∧ '.' ∉ ending.toList ∧ fileName path = some (stem ++ '.' :: ending.toList)

theorem takeWhile_of_last_dot {stem tail : List Char} (last : '.' ∉ tail) :
    (stem ++ '.' :: tail).reverse.takeWhile (· != '.') = tail.reverse := by
  have whole : (stem ++ '.' :: tail).reverse = tail.reverse ++ '.' :: stem.reverse := by simp
  rw [whole, List.takeWhile_append_of_pos]
  · simp
  · intro c member
    rw [bne_iff_ne]
    rintro rfl
    exact last (List.mem_reverse.mp member)

theorem exists_last_dot {name : List Char}
    (shorter : (name.reverse.takeWhile (· != '.')).length < name.length) :
    ∃ stem tail, '.' ∉ tail ∧ name = stem ++ '.' :: tail := by
  have parts := List.takeWhile_append_dropWhile (p := (· != '.')) (l := name.reverse)
  have first := List.head?_dropWhile_not (· != '.') name.reverse
  cases rest : name.reverse.dropWhile (· != '.') with
  | nil =>
    rw [rest, List.append_nil] at parts
    rw [parts, List.length_reverse] at shorter
    exact absurd shorter (Nat.lt_irrefl _)
  | cons c stem =>
    rw [rest] at first
    have dot : c = '.' := by simpa using first
    refine ⟨stem.reverse, (name.reverse.takeWhile (· != '.')).reverse, ?_, ?_⟩
    · intro member
      have other := List.all_takeWhile (p := (· != '.')) (l := name.reverse)
      simpa using List.all_eq_true.mp other '.' (List.mem_reverse.mp member)
    · rw [rest, dot] at parts
      have whole := congrArg List.reverse parts
      simpa using whole.symm

theorem extension_eq_some_iff {path ending : String} :
    CommandLine.extension path = some ending ↔ HasExtension path ending := by
  unfold CommandLine.extension HasExtension
  cases fileName path with
  | none => simp
  | some name =>
    simp only [Option.bind_eq_bind, Option.bind_some]
    constructor
    · intro found
      split at found
      · rename_i shorter
        obtain ⟨stem, tail, last, rfl⟩ := exists_last_dot (Nat.lt_of_succ_lt shorter)
        rw [takeWhile_of_last_dot last] at found shorter
        have ends : ending = String.ofList tail := by simpa using found.symm
        refine ⟨stem, ?_, by simpa [ends] using last, by simp [ends]⟩
        rintro rfl
        simp at shorter
      · cases found
    · rintro ⟨stem, some, last, whole⟩
      cases whole
      have shorter : 0 < stem.length := List.length_pos_iff.mpr some
      rw [takeWhile_of_last_dot last]
      simp [shorter]

/-- A dot in front makes no extension. -/
example : CommandLine.extension "a/.logo" = none := rfl

def Options.pace (o : Options) : Pace :=
  .new (o.speed.getD Pace.fastest) false

/-- The run of a program on a blank sheet, whose switches nobody touches, ends so and leaves these
strokes. -/
def Draws (p : Program) (o : Options) (ending : Outcome) (strokes : List Stroke) : Prop :=
  ∃ limit m, p.run limit (.new (Stage.quiet Sketch.blank o.pace)) = .ended ending m ∧
    m.host.turtle.strokes.toList = strokes

inductive Shows (o : Options) (source : String) : Except Failure Answer → Prop
  | tokens {xs : List Lexeme} (asked : o.tokens = true)
    (delivered : (Feed.ofSource keywords source).Delivers xs) :
    Shows o source (.ok (.tokens (!o.plain) xs))
  | unread {e : SyntaxError} (no_tokens : o.tokens = false)
    (fault : Program.parse source = .error e) : Shows o source (.error (.unread e))
  | tree {p : Program} (no_tokens : o.tokens = false) (parsed : Program.parse source = .ok p)
    (asked : o.tree = true) : Shows o source (.ok (.tree p))
  | failed {p : Program} {e : RuntimeError} {strokes : List Stroke} (no_tokens : o.tokens = false)
    (parsed : Program.parse source = .ok p) (no_tree : o.tree = false)
    (ran : Draws p o (.failed e) strokes) : Shows o source (.error (.failed e))
  | drawing {p : Program} {strokes : List Stroke} (no_tokens : o.tokens = false)
    (parsed : Program.parse source = .ok p) (no_tree : o.tree = false)
    (ran : Draws p o .finished strokes) : Shows o source (.ok (.drawing o.json strokes))

variable {open? : String → Except ReadError String}

inductive Serves (open? : String → Except ReadError String) (o : Options) :
    Except Failure Answer → Prop
  | usage (unnamed : o.file = none) : Serves open? o (.ok .usage)
  | extension {file : String} (named : o.file = some file) (other : ¬ HasExtension file "logo") :
    Serves open? o (.error (.extension file))
  | unreadable {file : String} {e : ReadError} (named : o.file = some file)
    (logo : HasExtension file "logo") (shut : open? file = .error e) :
    Serves open? o (.error (.unreadable file e))
  | shows {file source : String} {r : Except Failure Answer} (named : o.file = some file)
    (logo : HasExtension file "logo") (opened : open? file = .ok source)
    (shows : Shows o source r) : Serves open? o r

inductive Answers (open? : String → Except ReadError String) (words : List String) :
    Except Failure Answer → Prop
  | misread {e : OptionError} (heard : Heard words (.error e)) :
    Answers open? words (.error (.options e))
  | serves {o : Options} {r : Except Failure Answer} (heard : Heard words (.ok o))
    (serves : Serves open? o r) : Answers open? words r

def written (r : Except Failure Answer) : Except Failure String :=
  r.map Answer.text

@[simp] theorem written_ok (a : Answer) : written (.ok a) = .ok a.text :=
  rfl

@[simp] theorem written_error (f : Failure) : written (.error f) = .error f :=
  rfl

theorem shows_of_process {limit : Nat} {o : Options} {source : String}
    {w : Except Failure String} (answered : process limit o source = some w) :
    ∃ r, Shows o source r ∧ written r = w := by
  unfold process at answered
  split at answered
  · rename_i asked
    cases answered
    exact ⟨_, .tokens asked (Feed.delivers_iff.mpr rfl), rfl⟩
  · rename_i no_tokens
    rw [Bool.not_eq_true] at no_tokens
    split at answered
    · rename_i e fault
      cases answered
      exact ⟨_, .unread no_tokens fault, rfl⟩
    · rename_i p parsed
      split at answered
      · rename_i asked
        cases answered
        exact ⟨_, .tree no_tokens parsed asked, rfl⟩
      · rename_i no_tree
        rw [Bool.not_eq_true] at no_tree
        dsimp only at answered
        split at answered
        · cases answered
        · cases answered
        · rename_i e m ran
          cases answered
          exact ⟨_, .failed no_tokens parsed no_tree ⟨limit, m, ran, rfl⟩, rfl⟩
        · rename_i ending m released unfailed ran
          cases answered
          have finished : ending = .finished := by
            cases ending with
            | finished => rfl
            | stopped => exact absurd rfl (Machine.ne_stopped_of_run rfl ran)
            | failed e => exact absurd rfl (unfailed e)
            | held => exact absurd rfl released
          exact ⟨_, .drawing no_tokens parsed no_tree ⟨limit, m, finished ▸ ran, rfl⟩, rfl⟩

theorem process_of_shows {o : Options} {source : String} {r : Except Failure Answer}
    (shows : Shows o source r) : ∃ limit, process limit o source = some (written r) := by
  cases shows with
  | tokens asked delivered =>
    obtain rfl := Feed.delivers_iff.mp delivered
    exact ⟨0, by simp [process, asked, Feed.ahead, Feed.ofSource, Answer.text]⟩
  | unread no_tokens fault => exact ⟨0, by simp [process, no_tokens, fault]⟩
  | tree no_tokens parsed asked =>
    exact ⟨0, by simp [process, no_tokens, parsed, asked, Answer.text]⟩
  | failed no_tokens parsed no_tree ran =>
    obtain ⟨limit, m, ran, rfl⟩ := ran
    rw [Options.pace] at ran
    exact ⟨limit, by simp [process, no_tokens, parsed, no_tree, ran]⟩
  | drawing no_tokens parsed no_tree ran =>
    obtain ⟨limit, m, ran, rfl⟩ := ran
    rw [Options.pace] at ran
    exact ⟨limit, by simp [process, no_tokens, parsed, no_tree, ran, Answer.text]⟩

theorem Shows.prints {o : Options} {source : String} {a : Answer} (shows : Shows o source (.ok a)) :
    Prints a a.text := by
  cases shows with
  | tokens _ delivered =>
    obtain rfl := Feed.delivers_iff.mp delivered
    exact prints_listing (!o.plain) source
  | tree _ parsed _ => exact prints_outline parsed
  | drawing _ _ _ _ => exact prints_drawing o.json _

theorem serves_of_respond {limit : Nat} {words : List String} {o : Options}
    {w : Except Failure String} (result : read words = .ok o)
    (answered : respond limit open? words = some w) : ∃ r, Serves open? o r ∧ written r = w := by
  unfold respond request at answered
  rw [result] at answered
  cases named : o.file with
  | none =>
    simp only [named] at answered
    cases answered
    exact ⟨_, .usage named, rfl⟩
  | some file =>
    by_cases logo : CommandLine.extension file = some "logo"
    · simp only [named, if_pos logo, Request.answer] at answered
      have logo := extension_eq_some_iff.mp logo
      cases opened : open? file with
      | error e =>
        rw [opened] at answered
        cases answered
        exact ⟨_, .unreadable named logo opened, rfl⟩
      | ok source =>
        rw [opened] at answered
        obtain ⟨r, shows, same⟩ := shows_of_process answered
        exact ⟨r, .shows named logo opened shows, same⟩
    · simp only [named, if_neg logo] at answered
      cases answered
      exact ⟨_, .extension named fun has => logo (extension_eq_some_iff.mpr has), rfl⟩

theorem answers_of_respond {limit : Nat} {words : List String} {w : Except Failure String}
    (answered : respond limit open? words = some w) :
    ∃ r, Answers open? words r ∧ written r = w := by
  cases result : read words with
  | error e =>
    simp only [respond, request, result] at answered
    cases answered
    exact ⟨_, .misread (read_eq_iff.mp result), rfl⟩
  | ok o =>
    obtain ⟨r, serves, same⟩ := serves_of_respond result answered
    exact ⟨r, .serves (read_eq_iff.mp result) serves, same⟩

theorem respond_of_answers {words : List String} {r : Except Failure Answer}
    (answers : Answers open? words r) : ∃ limit, respond limit open? words = some (written r) := by
  cases answers with
  | misread heard => exact ⟨0, by simp [respond, request, read_eq_iff.mpr heard]⟩
  | serves heard serves =>
    have result := read_eq_iff.mpr heard
    cases serves with
    | usage unnamed =>
      exact ⟨0, by simp [respond, request, result, unnamed, Request.answer, Answer.text]⟩
    | extension named other =>
      have other := (not_congr extension_eq_some_iff).mpr other
      exact ⟨0, by simp [respond, request, result, named, other]⟩
    | unreadable named logo shut =>
      have logo := extension_eq_some_iff.mpr logo
      exact ⟨0, by simp [respond, request, result, named, logo, Request.answer, shut]⟩
    | shows named logo opened shows =>
      have logo := extension_eq_some_iff.mpr logo
      obtain ⟨limit, answered⟩ := process_of_shows shows
      refine ⟨limit, ?_⟩
      simp [respond, request, result, named, logo, Request.answer, opened, answered]

theorem holds_pace {o : Options} (moves : o.speed ≠ some 0) : o.pace.holds = false := by
  have positive : 0 < o.speed.getD Pace.fastest := by
    cases speed : o.speed with
    | none => decide
    | some n => exact Nat.pos_of_ne_zero fun zero => moves (zero ▸ speed)
  have moving : 0 < o.pace.speed := Nat.lt_min.mpr ⟨positive, by decide⟩
  have unpaused : o.pace.paused = false := rfl
  simp [Pace.holds, unpaused, Nat.ne_of_gt moving]

theorem Draws.same {p : Program} {o o' : Options} {ending ending' : Outcome}
    {strokes strokes' : List Stroke} (first : Draws p o ending strokes)
    (second : Draws p o' ending' strokes') (released : ending ≠ .held)
    (released' : ending' ≠ .held) : ending = ending' ∧ strokes = strokes' := by
  obtain ⟨i, m, ran, rfl⟩ := first
  obtain ⟨j, k, ran', rfl⟩ := second
  obtain ⟨same, turtle⟩ := Machine.run_same rfl rfl ran ran' released released'
  exact ⟨same, congrArg (·.strokes.toList) turtle⟩

theorem Draws.freely {p : Program} {o o' : Options} {ending : Outcome} {strokes : List Stroke}
    (draws : Draws p o ending strokes) (moves : o'.speed ≠ some 0) (released : ending ≠ .held) :
    Draws p o' ending strokes := by
  obtain ⟨limit, m, ran, rfl⟩ := draws
  exact ⟨limit, _, Machine.run_freely rfl rfl (holds_pace moves) ran released, rfl⟩

def Options.atSpeed (o : Options) (speed : Option Nat) : Options :=
  { o with speed }

variable {o : Options} {s : Option Nat} {r r' : Except Failure Answer}

theorem Shows.same {source : String} (first : Shows o source r)
    (second : Shows (o.atSpeed s) source r') : r = r' := by
  cases first with
  | tokens asked delivered =>
    cases second with
    | tokens _ delivered' =>
      rw [Feed.delivers_iff] at delivered delivered'
      rw [delivered, delivered']
      rfl
    | _ => simp_all [Options.atSpeed]
  | unread no_tokens fault => cases second <;> simp_all [Options.atSpeed]
  | tree no_tokens parsed asked => cases second <;> simp_all [Options.atSpeed]
  | failed no_tokens parsed no_tree ran =>
    cases second with
    | failed _ parsed' _ ran' =>
      cases parsed.symm.trans parsed'
      cases (ran.same ran' (by simp) (by simp)).1
      rfl
    | drawing _ parsed' _ ran' =>
      cases parsed.symm.trans parsed'
      cases (ran.same ran' (by simp) (by simp)).1
    | _ => simp_all [Options.atSpeed]
  | drawing no_tokens parsed no_tree ran =>
    cases second with
    | failed _ parsed' _ ran' =>
      cases parsed.symm.trans parsed'
      cases (ran.same ran' (by simp) (by simp)).1
    | drawing _ parsed' _ ran' =>
      cases parsed.symm.trans parsed'
      rw [(ran.same ran' (by simp) (by simp)).2]
      rfl
    | _ => simp_all [Options.atSpeed]

theorem Shows.freely {source : String} (shows : Shows o source r) (moves : s ≠ some 0) :
    Shows (o.atSpeed s) source r := by
  cases shows with
  | tokens asked delivered => exact .tokens asked delivered
  | unread no_tokens fault => exact .unread no_tokens fault
  | tree no_tokens parsed asked => exact .tree no_tokens parsed asked
  | failed no_tokens parsed no_tree ran =>
    exact .failed no_tokens parsed no_tree (ran.freely moves (by simp))
  | drawing no_tokens parsed no_tree ran =>
    exact .drawing no_tokens parsed no_tree (ran.freely moves (by simp))

theorem Serves.same (first : Serves open? o r) (second : Serves open? (o.atSpeed s) r') :
    r = r' := by
  cases first with
  | usage unnamed => cases second <;> simp_all [Options.atSpeed]
  | extension named other => cases second <;> simp_all [Options.atSpeed]
  | unreadable named logo shut => cases second <;> simp_all [Options.atSpeed]
  | shows named logo opened shows =>
    cases second with
    | shows named' _ opened' shows' =>
      cases named.symm.trans named'
      cases opened.symm.trans opened'
      exact shows.same shows'
    | _ => simp_all [Options.atSpeed]

theorem Serves.freely (serves : Serves open? o r) (moves : s ≠ some 0) :
    Serves open? (o.atSpeed s) r := by
  cases serves with
  | usage unnamed => exact .usage unnamed
  | extension named other => exact .extension named other
  | unreadable named logo shut => exact .unreadable named logo shut
  | shows named logo opened shows => exact .shows named logo opened (shows.freely moves)

theorem Answers.unique {words : List String} (first : Answers open? words r)
    (second : Answers open? words r') : r = r' := by
  cases first with
  | misread heard =>
    have result := read_eq_iff.mpr heard
    cases second with
    | misread heard' =>
      cases result.symm.trans (read_eq_iff.mpr heard')
      rfl
    | serves heard' => cases result.symm.trans (read_eq_iff.mpr heard')
  | @serves o _ heard serves =>
    have result := read_eq_iff.mpr heard
    cases second with
    | misread heard' => cases result.symm.trans (read_eq_iff.mpr heard')
    | serves heard' serves' =>
      cases result.symm.trans (read_eq_iff.mpr heard')
      exact @Serves.same open? o o.speed r r' serves serves'

theorem answers_items {said : List Item} (sayable : Sayable said) :
    Answers open? (wordsOf said) r ↔ Serves open? (optionsOf said) r := by
  have heard : Heard (wordsOf said) (.ok (optionsOf said)) := .all sayable rfl
  constructor
  · intro answers
    have result := read_eq_iff.mpr heard
    cases answers with
    | misread other => cases result.symm.trans (read_eq_iff.mpr other)
    | serves other serves =>
      cases result.symm.trans (read_eq_iff.mpr other)
      exact serves
  · exact .serves heard

inductive Exits : Except Failure Answer → Exit → Prop
  | failure (f : Failure) : Exits (.error f) ⟨1, "", f.report⟩
  | success {a : Answer} {text : String} (prints : Prints a text) : Exits (.ok a) ⟨0, text, ""⟩

theorem Answers.prints {words : List String} {a : Answer} (answers : Answers open? words (.ok a)) :
    Prints a a.text := by
  cases answers with
  | serves _ serves =>
    cases serves with
    | usage => exact .usage
    | shows _ _ _ shows => exact shows.prints

theorem Answers.exits {words : List String} (answers : Answers open? words r) :
    Exits r (.of (written r)) := by
  cases r with
  | error f => exact .failure f
  | ok a => exact .success answers.prints

def Ends (open? : String → Except ReadError String) (words : List String) (x : Exit) : Prop :=
  ∃ limit r, respond limit open? words = some r ∧ Exit.of r = x

structure Concludes (open? : String → Except ReadError String) (words : List String) : Prop where
  ends : ∀ x, Ends open? words x → ∃ r, Answers open? words r ∧ Exits r x
  answered : ∀ r, Answers open? words r → ∃ x, Ends open? words x ∧ Exits r x
  ends_once : ∀ x y, Ends open? words x → Ends open? words y → x = y
  answered_once : ∀ r r', Answers open? words r → Answers open? words r' → r = r'
  failure : ∀ x, Ends open? words x → (x.code ≠ 0 ↔ ∃ f, Answers open? words (.error f))
  /-- a failure prints nothing, even of what had been drawn before it -/
  silent : ∀ x, Ends open? words x → x.code ≠ 0 → x.output = ""
  success : ∀ x, Ends open? words x → x.code = 0 →
    ∃ a, Answers open? words (.ok a) ∧ Prints a x.output
  /-- in another order the same items have the same effect, only that with speed 0, which now may be
  the one that counts, there may be no end -/
  reordered : ∀ said others, words = wordsOf said → Sayable said → said.Perm others →
    ∀ x, Ends open? words x → (∀ y, Ends open? (wordsOf others) y → x = y) ∧
      ((optionsOf others).speed ≠ some 0 → Ends open? (wordsOf others) x)

theorem ends_iff {words : List String} {x : Exit} :
    Ends open? words x ↔ ∃ r, Answers open? words r ∧ Exit.of (written r) = x := by
  constructor
  · rintro ⟨limit, w, answered, rfl⟩
    obtain ⟨r, answers, rfl⟩ := answers_of_respond answered
    exact ⟨r, answers, rfl⟩
  · rintro ⟨r, answers, rfl⟩
    obtain ⟨limit, answered⟩ := respond_of_answers answers
    exact ⟨limit, written r, answered, rfl⟩

theorem ends_reordered {said others : List Item} (sayable : Sayable said)
    (same : said.Perm others) {x : Exit} (ends : Ends open? (wordsOf said) x) :
    (∀ y, Ends open? (wordsOf others) y → x = y) ∧
      ((optionsOf others).speed ≠ some 0 → Ends open? (wordsOf others) x) := by
  obtain ⟨r, answers, rfl⟩ := ends_iff.mp ends
  have serves := (answers_items sayable).mp answers
  have options : optionsOf others = (optionsOf said).atSpeed (optionsOf others).speed :=
    optionsOf_perm sayable same
  have sayable' := sayable.perm same
  constructor
  · intro y ends'
    obtain ⟨r', answers', rfl⟩ := ends_iff.mp ends'
    have serves' := (answers_items sayable').mp answers'
    rw [options] at serves'
    rw [serves.same serves']
  · intro moves
    refine ends_iff.mpr ⟨r, (answers_items sayable').mpr ?_, rfl⟩
    rw [options]
    exact serves.freely moves

end TurtleGraphics.CommandLine
