import TurtleGraphics.Proofs.Run.Course

/-!
What a run has done when it fails. A run that fails takes a course that breaks off, and a course
says what the run does, so the run has done the commands of the course and nothing else.
-/

namespace TurtleGraphics

namespace Machine

variable {ω : Type} [Host ω]

def Takes (m : Machine ω) (w : Work) (r : Option RuntimeError) (k : Machine ω) : Prop :=
  ∃ done, Does m w done r k

inductive Ends (rest : List Task) (n : Nat) (e : RuntimeError) (f : Machine ω)
    (takes : Option RuntimeError → Machine ω → Prop) : Prop
  | failed {k : Machine ω} (broken : takes (some e) k) (same : k.finish = f.finish)
  | passed {k : Machine ω} {j : Nat} (le : j ≤ n) (through : takes none k)
    (later : (k.doing rest).steps j = .ended (.failed e) f)

section Ends

variable {m f : Machine ω} {rest : List Task} {n limit : Nat} {e : RuntimeError}

theorem Ends.imp {takes others : Option RuntimeError → Machine ω → Prop}
    (ends : Ends rest n e f takes) (le : n ≤ limit) (next : ∀ r k, takes r k → others r k) :
    Ends rest limit e f others := by
  cases ends with
  | failed broken same => exact .failed (next _ _ broken) same
  | passed fewer through later => exact .passed (by omega) (next _ _ through) later

/-- What the run fails in or after takes a course. -/
def Followed (ω : Type) [Host ω] (w : Work) (limit : Nat) : Prop :=
  ∀ (m f : Machine ω) (rest : List Task) (n : Nat) (e : RuntimeError), n ≤ limit →
    (m.doing (w.tasks ++ rest)).steps n = .ended (.failed e) f → Ends rest n e f (Takes m w)

theorem followed_before {t : Tree Node} {more : Work} (first : Followed ω (.command t) limit)
    (others : Followed ω more limit) : Followed ω (.before t more) limit := by
  intro m f rest n e le failed
  cases first _ _ _ _ _ le failed with
  | failed broken same => exact .failed (broken.imp fun _ course => .broken course) same
  | @passed k j fewer through later =>
    obtain ⟨done, through⟩ := through
    refine (others k f rest j e (by omega) later).imp fewer fun r k ⟨more, course⟩ => ?_
    exact ⟨done ++ more, .before through course⟩

theorem followed_sequence (visits : ∀ t, Followed ω (.command t) limit) (ts : List (Tree Node)) :
    Followed ω (.sequence ts) limit := by
  induction ts with
  | nil => exact fun m f rest n e le failed => .passed (Nat.le_refl n) ⟨[], .nil⟩ failed
  | cons t ts ih =>
    intro m f rest n e le failed
    refine (followed_before (visits t) ih m f rest n e le failed).imp (Nat.le_refl n) fun r k => ?_
    exact .imp fun _ course => .cons course

theorem followed_repeats (visits : ∀ t, Followed ω (.command t) limit) (count : Nat)
    (body : Tree Node) : Followed ω (.repeats count body) limit := by
  induction count with
  | zero =>
    intro m f rest n e le failed
    cases n with
    | zero => cases failed
    | succ n => exact .passed (Nat.le_succ n) ⟨[], .zero⟩ failed
  | succ count ih =>
    intro m f rest n e le failed
    cases n with
    | zero => cases failed
    | succ n =>
      have ends := followed_before (visits body) ih m f rest n e (by omega) failed
      exact ends.imp (Nat.le_succ n) fun r k => .imp fun _ course => .succ course

/-- A look at the switches went well, and then an error was found or something was carried out. -/
theorem failed_of_proceed {find : Bindings (Tree Node) → View → Except RuntimeError Deed}
    (failed : ((m.doing rest).proceed find).steps n = .ended (.failed e) f) :
    ∃ l, m.Looks l ∧ ((find l.procedures l.view = .error e ∧ l.finish = f.finish) ∨
      ∃ d, find l.procedures l.view = .ok d ∧
        ((l.doing rest).carryOut d).steps n = .ended (.failed e) f) := by
  have turns := (m.doing rest).proceed_turns find
  generalize (m.doing rest).proceed find = p at turns failed
  cases turns with
  | stopped => cases failed
  | refused polled found =>
    cases failed
    exact ⟨_, .intro polled, .inl ⟨found, rfl⟩⟩
  | carried polled found => exact ⟨_, .intro polled, .inr ⟨_, found, failed⟩⟩

theorem followed_rounds (visits : ∀ t, Followed ω (.command t) limit) (condition body : Tree Node) :
    ∀ n ≤ limit, Followed ω (.rounds condition body) n := by
  intro n
  induction n with
  | zero =>
    intro bound m f rest n e le failed
    obtain rfl := Nat.le_zero.mp le
    cases failed
  | succ bound ih =>
    intro below m f rest n e le failed
    cases n with
    | zero => cases failed
    | succ n =>
      rw [steps_succ] at failed
      obtain ⟨l, looks, ⟨wrong, same⟩ | ⟨d, found, later⟩⟩ := failed_of_proceed (m := m) failed
      · rcases error_of_bind wrong with value | ⟨b, _, done⟩
        · exact .failed ⟨[], .unclear looks value⟩ same
        · cases done
      · obtain ⟨b, value, done⟩ := ok_of_bind found
        cases done
        cases b with
        | false => exact .passed (Nat.le_succ n) ⟨[], .last looks value⟩ later
        | true =>
          -- the rounds to come are the same work as before, but they have fewer steps
          have visit : Followed ω (.command body) bound := fun m f rest n e le =>
            visits body m f rest n e (by omega)
          have ends := followed_before visit (ih (by omega)) l f rest n e (by omega) later
          exact ends.imp (Nat.le_succ n) fun r k => .imp fun _ course => .round looks value course

omit [Host ω] in
theorem store_doing (m : Machine ω) (name : String) (x : Float) (rest : List Task) :
    (m.doing rest).store name x = (m.store name x).doing rest := by
  refine (m.store_with name x rest m.procedures).trans ?_
  rw [doing, store_procedures]

theorem call_ends {l : Machine ω} {t body : Tree Node} {frame : Bindings Float}
    (visits : ∀ t, Followed ω (.command t) limit) (le : n ≤ limit) (looks : m.Looks l)
    (found : deed l.procedures l.view t = .ok (.call frame body))
    (failed : ((l.doing rest).carryOut (.call frame body)).steps n = .ended (.failed e) f) :
    Ends rest n e f (Takes m (.command t)) := by
  let inside : Machine ω := { l with frames := frame :: l.frames }
  cases visits body inside f (.leave :: rest) n e le failed with
  | @failed k broken same =>
    have left : ({ k with frames := k.frames.tail } : Machine ω).finish = f.finish := same
    obtain ⟨done, broken⟩ := broken
    exact .failed ⟨done, .call looks found broken⟩ left
  | @passed k j fewer through later =>
    -- the first of the steps that are left leaves the procedure
    obtain ⟨done, through⟩ := through
    cases j with
    | zero => cases later
    | succ j => exact .passed (Nat.le_of_succ_le fewer) ⟨done, .call looks found through⟩ later

theorem carried_ends {l : Machine ω} {t : Tree Node} {d : Deed}
    (visits : ∀ t, Followed ω (.command t) limit) (le : n ≤ limit) (looks : m.Looks l)
    (found : deed l.procedures l.view t = .ok d)
    (failed : ((l.doing rest).carryOut d).steps n = .ended (.failed e) f) :
    Ends rest n e f (Takes m (.command t)) := by
  have same := Nat.le_refl n
  cases yields_of_deed found with
  | @program _ block _ procedures =>
    refine (visits block { l with procedures } f rest n e le failed).imp same fun r k => ?_
    exact .imp fun _ course => .program looks found course
  | @block _ ts kind =>
    refine (followed_sequence visits ts l f rest n e le failed).imp same fun r k => ?_
    exact .imp fun _ course => .block kind looks course
  | @assign =>
    rw [carryOut, store_doing] at failed
    exact .passed same ⟨_, .assign looks found (assigns_store ..)⟩ failed
  | @times _ count body x kind value =>
    refine (followed_repeats visits _ body l f rest n e le failed).imp same fun r k => ?_
    exact .imp fun _ course => .times kind looks value course
  | @loop _ condition body kind =>
    have rounds := followed_rounds visits condition body limit (Nat.le_refl limit)
    refine (rounds l f rest n e le failed).imp same fun r k => ?_
    exact .imp fun _ course => .loop kind looks course
  | @branch _ condition body b kind value =>
    have chosen : (if b then [Task.visit body] else []) =
        (if b then [body] else []).map .visit := by
      cases b <;> rfl
    rw [chosen] at failed
    refine (followed_sequence visits _ l f rest n e le failed).imp same fun r k => ?_
    exact .imp fun _ course => .branch kind looks value course
  | @branchElse _ condition body otherwise b kind value =>
    refine (visits _ l f rest n e le failed).imp same fun r k => ?_
    exact .imp fun _ course => .branchElse kind looks value course
  | call => exact call_ends visits le looks found failed
  | @order _ _ o =>
    have waits := ((l.doing rest).perform (.order o)).settle_awaits
    rw [carryOut] at failed
    generalize ((l.doing rest).perform (.order o)).settle = p at waits failed
    cases waits with
    | going settled => exact .passed same ⟨_, .order looks found settled⟩ failed
    | stopped | held => cases failed

/-- By induction on the steps: what a command comes to is done in fewer steps. -/
theorem followed_command (limit : Nat) : ∀ t, Followed ω (.command t) limit := by
  induction limit with
  | zero =>
    intro t m f rest n e le failed
    obtain rfl := Nat.le_zero.mp le
    cases failed
  | succ limit ih =>
    intro t m f rest n e le failed
    cases n with
    | zero => cases failed
    | succ n =>
      rw [steps_succ] at failed
      obtain ⟨l, looks, ⟨wrong, same⟩ | ⟨d, found, later⟩⟩ := failed_of_proceed (m := m) failed
      · exact .failed ⟨[], .refused looks wrong⟩ same
      · have ends := carried_ends (m := m) ih (by omega) looks found later
        exact ends.imp (Nat.le_succ n) fun _ _ course => course

end Ends

def Gets (m : Machine ω) (rest : List Task) : Option RuntimeError → Machine ω → Prop
  | none, k => ∃ n, m.steps n = .going (k.doing rest)
  | some e, k => ∃ n f, m.steps n = .ended (.failed e) f ∧ f.finish = k.finish

section Gets

variable {m l k : Machine ω} {rest : List Task} {r : Option RuntimeError}

theorem Gets.after {n : Nat} (reached : m.steps n = .going l) (next : l.Gets rest r k) :
    m.Gets rest r k := by
  cases r with
  | none =>
    obtain ⟨j, later⟩ := next
    refine ⟨n + j, ?_⟩
    rw [steps_add, reached]
    exact later
  | some e =>
    obtain ⟨j, f, failed, same⟩ := next
    refine ⟨n + j, f, ?_, same⟩
    rw [steps_add, reached]
    exact failed

theorem Gets.step (first : m.step = .going l) (next : l.Gets rest r k) : m.Gets rest r k := by
  have reached : m.steps 1 = .going l := by
    rw [steps_succ, first]
    rfl
  exact next.after reached

theorem Gets.trans (first : m.Gets rest none l) {others : List Task}
    (next : (l.doing rest).Gets others r k) : m.Gets others r k := by
  obtain ⟨n, reached⟩ := first
  exact next.after reached

theorem proceed_looks (find : Bindings (Tree Node) → View → Except RuntimeError Deed)
    (looks : m.Looks l) (rest : List Task) :
    (m.doing rest).proceed find = (l.doing rest).attempt find := by
  cases looks with
  | intro polled => simp only [proceed, doing, polled]

/-- The first of the tasks comes to something that is carried out. -/
theorem Gets.turn (find : Bindings (Tree Node) → View → Except RuntimeError Deed)
    {tasks others : List Task} (first : (m.doing tasks).step = (m.doing others).proceed find)
    (looks : m.Looks l) {d : Deed} (found : find l.procedures l.view = .ok d) {k' : Machine ω}
    (carried : (l.doing others).carryOut d = .going k') (next : k'.Gets rest r k) :
    (m.doing tasks).Gets rest r k := by
  refine .step ?_ next
  have found : find (l.doing others).procedures (l.doing others).view = .ok d := found
  rw [first, proceed_looks find looks]
  simp only [attempt, found, carried]

theorem Gets.refused (find : Bindings (Tree Node) → View → Except RuntimeError Deed)
    {tasks others : List Task} (first : (m.doing tasks).step = (m.doing others).proceed find)
    (looks : m.Looks l) {e : RuntimeError} (found : find l.procedures l.view = .error e) :
    (m.doing tasks).Gets rest (some e) l := by
  have found : find (l.doing others).procedures (l.doing others).view = .error e := found
  refine ⟨1, l.doing others, ?_, rfl⟩
  rw [steps_succ, first, proceed_looks find looks]
  simp only [attempt, found]
  rfl

theorem Gets.leave (inside : m.Gets (.leave :: rest) r k) :
    m.Gets rest r { k with frames := k.frames.tail } := by
  cases r with
  | none => exact inside.trans (.step rfl ⟨0, rfl⟩)
  | some e => exact inside

end Gets

theorem Does.gets {m k : Machine ω} {w : Work} {done : List Done} {r : Option RuntimeError}
    (does : Does m w done r k) : ∀ rest, (m.doing (w.tasks ++ rest)).Gets rest r k := by
  induction does with intro rest
  | @refused m l t e looks found => exact .refused (deed · · t) rfl looks found
  | @order m l t o host looks found settled =>
    have carried : (l.doing rest).carryOut (.order o) =
        .going (({ l with host } : Machine ω).doing rest) := by
      have settled : Host.settle ((l.doing rest).perform (.order o)).host = (.go, host) := settled
      simp only [carryOut, settle, settled]
      rfl
    exact .turn (deed · · t) rfl looks found carried ⟨0, rfl⟩
  | @assign m l k t name x looks found assigns =>
    cases assigns.eq_store
    have carried : (l.doing rest).carryOut (.store name x) =
        .going (((l.store name x).perform (.store name x)).doing rest) := by
      rw [carryOut, store_doing]
      rfl
    exact .turn (deed · · t) rfl looks found carried ⟨0, rfl⟩
  | @program m l k t block procedures done r looks found _ ih =>
    exact .turn (deed · · t) rfl looks found rfl (ih rest)
  | @call m l k t body frame done r looks found _ ih =>
    exact .turn (deed · · t) rfl looks found rfl (ih (.leave :: rest)).leave
  | @block m l k n ts done r kind looks _ ih =>
    have found : deed l.procedures l.view (.node n ts) = .ok (.push (ts.map .visit)) := by
      simp only [deed, kind]
    exact .turn (deed · · _) rfl looks found rfl (ih rest)
  | @times m l k n count body x done r kind looks value _ ih =>
    have found : deed l.procedures l.view (.node n [count, body]) =
        .ok (.push [.times (Decimal.count x) body]) := by
      simp only [deed, kind]
      change (l.view.evaluate count >>= _) = _
      rw [value]
      rfl
    exact .turn (deed · · _) rfl looks found rfl (ih rest)
  | @loop m l k n condition body done r kind looks _ ih =>
    have found : deed l.procedures l.view (.node n [condition, body]) =
        .ok (.push [.loop condition body]) := by
      simp only [deed, kind]
      rfl
    exact .turn (deed · · _) rfl looks found rfl (ih rest)
  | @branch m l k n condition body b done r kind looks value _ ih =>
    have found : deed l.procedures l.view (.node n [condition, body]) =
        .ok (.push ((if b then [body] else []).map .visit)) := by
      simp only [deed, kind, value]
      cases b <;> rfl
    exact .turn (deed · · _) rfl looks found rfl (ih rest)
  | @branchElse m l k n condition body otherwise b done r kind looks value _ ih =>
    have found : deed l.procedures l.view (.node n [condition, body, otherwise]) =
        .ok (.push [.visit (if b then body else otherwise)]) := by
      simp only [deed, kind, value]
      rfl
    exact .turn (deed · · _) rfl looks found rfl (ih rest)
  | before _ _ first others => exact (first _).trans (others rest)
  | broken _ ih => exact ih _
  | nil => exact ⟨0, rfl⟩
  | cons _ ih => exact ih rest
  | zero => exact ⟨1, rfl⟩
  | succ _ ih => exact .step rfl (ih rest)
  | @unclear m l condition body e looks value =>
    have found : Machine.round l.view condition body = .error e := by
      simp only [Machine.round, value]
      rfl
    exact .refused (fun _ v => Machine.round v condition body) rfl looks found
  | @last m l condition body looks value =>
    have found : Machine.round l.view condition body = .ok (.push []) := by
      simp only [Machine.round, value]
      rfl
    exact .turn (fun _ v => Machine.round v condition body) rfl looks found rfl ⟨0, rfl⟩
  | @round m l k condition body done r looks value _ ih =>
    have found : Machine.round l.view condition body =
        .ok (.push [.visit body, .loop condition body]) := by
      simp only [Machine.round, value]
      rfl
    exact .turn (fun _ v => Machine.round v condition body) rfl looks found rfl (ih rest)

section Failure

variable {m l f : Machine ω} {e : RuntimeError}

theorem carryOut_never_fails (m : Machine ω) (d : Deed) : m.carryOut d ≠ .ended (.failed e) f := by
  cases d with
  | order o =>
    intro failed
    have waits := (m.perform (.order o)).settle_awaits
    rw [carryOut] at failed
    rw [failed] at waits
    cases waits
  | store | push | define | call => exact fun failed => by cases failed

/-- What is to be found out fails if an error is found once the switches have been looked at. -/
theorem proceed_fails_iff {find : Bindings (Tree Node) → View → Except RuntimeError Deed}
    (rest : List Task) : (∃ f, (m.doing rest).proceed find = .ended (.failed e) f) ↔
      ∃ l, m.Looks l ∧ find l.procedures l.view = .error e := by
  constructor
  · rintro ⟨f, failed⟩
    have turns := (m.doing rest).proceed_turns find
    rw [failed] at turns
    generalize p_eq : Progress.ended (.failed e) f = p at turns
    cases turns with
    | stopped => cases p_eq
    | refused polled found =>
      cases p_eq
      exact ⟨_, .intro polled, found⟩
    | carried => exact absurd p_eq.symm (carryOut_never_fails _ _)
  · rintro ⟨l, looks, found⟩
    have found : find (l.doing rest).procedures (l.doing rest).view = .error e := found
    refine ⟨l.doing rest, ?_⟩
    rw [proceed_looks find looks]
    simp only [attempt, found]

structure Unchanged (l f : Machine ω) : Prop where
  globals : f.globals = l.globals
  frames : f.frames = l.frames
  host : f.host = (Host.poll l.host).2

theorem proceed_unchanged {find : Bindings (Tree Node) → View → Except RuntimeError Deed}
    (failed : l.proceed find = .ended (.failed e) f) : Unchanged l f := by
  have turns := l.proceed_turns find
  rw [failed] at turns
  generalize p_eq : Progress.ended (.failed e) f = p at turns
  cases turns with
  | stopped => cases p_eq
  | refused polled =>
    cases p_eq
    exact ⟨rfl, rfl, by rw [polled]⟩
  | carried => exact absurd p_eq.symm (carryOut_never_fails _ _)

theorem step_unchanged (failed : l.step = .ended (.failed e) f) : Unchanged l f := by
  obtain ⟨tasks, globals, frames, procedures, host⟩ := l
  cases tasks with
  | nil => cases failed
  | cons task tasks =>
    let rest : Machine ω := ⟨tasks, globals, frames, procedures, host⟩
    cases task with
    | visit | loop =>
      have same := proceed_unchanged (l := rest) failed
      exact ⟨same.globals, same.frames, same.host⟩
    | times count => cases count <;> cases failed
    | leave => cases failed

/-- A run that has ended ended in a step. -/
theorem last_step {n : Nat} {o : Outcome} (ended : m.steps n = .ended o f) :
    ∃ j l, m.steps j = .going l ∧ l.step = .ended o f := by
  induction n generalizing m with
  | zero => cases ended
  | succ n ih =>
    rw [steps_succ] at ended
    cases step : m.step with
    | ended o' k =>
      rw [step] at ended
      cases ended
      exact ⟨0, m, rfl, step⟩
    | going k =>
      rw [step] at ended
      obtain ⟨j, l, reached, last⟩ := ih ended
      refine ⟨j + 1, l, ?_, last⟩
      rw [steps_succ, step]
      exact reached

/-- More steps change nothing. -/
theorem steps_of_le {i j : Nat} {o : Outcome} (ended : m.steps i = .ended o f) (le : i ≤ j) :
    m.steps j = .ended o f := by
  obtain ⟨more, rfl⟩ := Nat.exists_eq_add_of_le le
  rw [steps_add, ended]
  rfl

theorem steps_ended_iff {limit : Nat} {o : Outcome} : m.steps limit = .ended o f ↔
    ∃ n l, n < limit ∧ m.steps n = .going l ∧ l.step = .ended o f := by
  constructor
  · intro ended
    obtain ⟨n, l, reached, last⟩ := last_step ended
    refine ⟨n, l, Nat.lt_of_not_le fun later => ?_, reached, last⟩
    have past := steps_of_le ended later
    rw [reached] at past
    cases past
  · rintro ⟨n, l, before, reached, last⟩
    have ended : m.steps (n + 1) = .ended o f := by
      rw [steps_add, reached]
      exact congrArg (Progress.steps 0) last
    exact steps_of_le ended before

theorem ended_unique {i j : Nat} {o o' : Outcome} (first : m.steps i = .ended o l)
    (second : m.steps j = .ended o' f) : o = o' ∧ l = f := by
  have first := steps_of_le first (Nat.le_add_right i j)
  have second := steps_of_le second (Nat.le_add_left j i)
  cases first.symm.trans second
  exact ⟨rfl, rfl⟩

/-- A run that fails takes a course that breaks off. -/
theorem takes_of_failed {n : Nat} {t : Tree Node} (free : m.finish = m)
    (failed : (m.doing [.visit t]).steps n = .ended (.failed e) f) :
    Takes m (.command t) (some e) f.finish := by
  cases followed_command n t m f [] n e (Nat.le_refl n) failed with
  | @failed k broken same =>
    obtain ⟨done, course⟩ := broken
    have whole : k = f.finish := (course.finish_eq free).symm.trans same
    exact ⟨done, whole ▸ course⟩
  | @passed k j _ _ later => cases j <;> cases later

/-- A run that fails takes no other course. -/
theorem eq_of_failed {n : Nat} {t : Tree Node} (free : m.finish = m)
    (failed : (m.doing [.visit t]).steps n = .ended (.failed e) f) {done : List Done}
    {r : Option RuntimeError} {k : Machine ω} (course : Does m (.command t) done r k) :
    r = some e ∧ k = f.finish := by
  have gets := course.gets []
  cases r with
  | none =>
    -- a course that comes to its end would let the run finish
    obtain ⟨j, reached⟩ := gets
    have finished : (m.doing [.visit t]).steps (j + 1) = .ended .finished (k.doing []) := by
      rw [steps_add]
      exact congrArg (Progress.steps 1) reached
    cases (ended_unique failed finished).1
  | some e' =>
    obtain ⟨j, f', failed', same⟩ := gets
    obtain ⟨outcome, rfl⟩ := ended_unique failed failed'
    cases outcome
    exact ⟨rfl, (course.finish_eq free).symm.trans same.symm⟩

end Failure

structure BreaksOff (m : Machine (Logged ω)) (t : Tree Node) (limit : Nat) (e : RuntimeError)
    (k : Machine (Logged ω)) : Prop where
  course : ∃ done, Does ((m.start t).doing []) (.command t) done (some e) k ∧
    k.host.effects = m.host.effects ++ done.map (·.effect)
  only : ∀ done r l, Does ((m.start t).doing []) (.command t) done r l → r = some e ∧ l = k
  failure : ∃ n l f, (m.start t).steps n = .going l ∧ l.step = .ended (.failed e) f ∧
    k = f.finish ∧ f.globals = l.globals ∧ f.frames = l.frames ∧ f.host.effects = l.host.effects
  final : ∀ n, limit ≤ n → m.run n t = .ended (.failed e) k

theorem run_breaks_off {m k : Machine (Logged ω)} {t : Tree Node} {limit : Nat} {e : RuntimeError}
    (failed : m.run limit t = .ended (.failed e) k) : m.BreaksOff t limit e k := by
  obtain ⟨f, ended, rfl⟩ : ∃ f, (m.start t).steps limit = .ended (.failed e) f ∧ k = f.finish := by
    unfold run at failed
    split at failed
    · cases failed
    · rename_i f ended
      cases failed
      exact ⟨f, ended, rfl⟩
  have free : ((m.start t).doing []).finish = (m.start t).doing [] := rfl
  obtain ⟨done, course⟩ := takes_of_failed free ended
  obtain ⟨n, l, reached, last⟩ := last_step ended
  have same := step_unchanged last
  have effects : f.host.effects = l.host.effects := congrArg (·.effects) same.host
  refine ⟨⟨done, course, course.effects⟩, fun done r l => eq_of_failed free ended,
    ⟨n, l, f, reached, last, rfl, same.globals, same.frames, effects⟩, fun n le => ?_⟩
  unfold run
  rw [steps_of_le ended le]

/-- A procedure sets a global variable and one of its own and then fails in the second operand of
`jump`, with commands after it and after the call. -/
theorem run_breaks_off_in_call :
    let word (w : String) (ts : List (Tree Node)) : Tree Node := .node (.ofToken ⟨.keyword, w⟩) ts
    let name (w : String) : Tree Node := .node (.ofToken ⟨.name, w⟩) []
    let number (w : String) : Tree Node := .node (.ofToken ⟨.number, w⟩) []
    let group (g : Node.Group) (ts : List (Tree Node)) : Tree Node := .node (.ofGroup g) ts
    let body : Tree Node :=
      group .block [word "home" [], word "set" [name "a", number "2"],
        word "set" [name "b", number "3"], word "jump" [name "b", name "c"], word "red" []]
    let t : Tree Node := group .program
      [group .block [word "set" [name "a", number "1"], word "do" [name "f", group .list []],
        word "red" []],
        group .list [word "def" [group .header [name "f", group .list []], body]]]
    let m : Machine (Logged (Stage Sketch)) :=
      .new ⟨.quiet .blank (.new Pace.fastest false), []⟩
    ∃ k, m.run 20 t = .ended (.failed (.undefinedVariable "c")) k ∧
      k.host.effects = [.store "a" 1, .order .home, .store "a" 2, .store "b" 3] ∧
      k.globals = ⟨[("a", 2)]⟩ ∧ m.BreaksOff t 20 (.undefinedVariable "c") k := by
  intro word name number group body t m
  have seen : (match m.run 20 t with
      | .ended (.failed e) k => some (e, k.host.effects, k.globals)
      | _ => none) = some (.undefinedVariable "c",
        [.store "a" 1, .order .home, .store "a" 2, .store "b" 3], ⟨[("a", 2)]⟩) := by
    decide +kernel
  split at seen
  · rename_i e k ran
    obtain ⟨rfl, more⟩ := Prod.mk.inj (Option.some.inj seen)
    obtain ⟨effects, globals⟩ := Prod.mk.inj more
    exact ⟨k, ran, effects, globals, run_breaks_off ran⟩
  · cases seen

end Machine

end TurtleGraphics
