import TurtleGraphics.Proofs.Run.Step
import TurtleGraphics.Turtle.Sketch

/-!
A call and its callers. While a procedure runs, nothing below its own variables and its own tasks is
looked at or changed, so a call does the same whoever makes it and leaves the callers' variables as
they were.
-/

namespace TurtleGraphics

variable {ω : Type}

def leaves : List Task → Nat
  | [] => 0
  | .leave :: tasks => leaves tasks + 1
  | .visit _ :: tasks | .times _ _ :: tasks | .loop _ _ :: tasks => leaves tasks

@[simp] theorem leaves_append (tasks rest : List Task) :
    leaves (tasks ++ rest) = leaves tasks + leaves rest := by
  induction tasks with
  | nil => simp [leaves]
  | cons task tasks ih =>
    cases task <;> simp only [List.cons_append, leaves, ih]
    omega

@[simp] theorem leaves_visits (ts : List (Tree Node)) : leaves (ts.map .visit) = 0 := by
  induction ts with
  | nil => rfl
  | cons t ts ih => exact ih

/-- Gives up what is left to do; each procedure that is not left yet gives up its variables. -/
def Machine.unwind (m : Machine ω) : Machine ω :=
  { m with tasks := [], frames := m.frames.drop (leaves m.tasks) }

namespace Progress

def map (f : Machine ω → Machine ω) : Progress ω → Progress ω
  | going m => going (f m)
  | ended o m => ended o (f m)

def steps [Host ω] (n : Nat) : Progress ω → Progress ω
  | going m => m.steps n
  | ended o m => ended o m

def unwound : Progress ω → Progress ω
  | going m => going m
  | ended o m => ended o m.unwind

end Progress

namespace Machine

/-- The same machine with further tasks after its own and callers below its own frames. -/
def atop (m : Machine ω) (tasks : List Task) (callers : List (Bindings Float)) : Machine ω :=
  { m with tasks := m.tasks ++ tasks, frames := m.frames ++ callers }

structure Calling (m : Machine ω) : Prop where
  last : ∃ own, m.tasks = own ++ [.leave]
  frames : m.frames.length = leaves m.tasks

theorem Calling.frames_ne_nil {m : Machine ω} (h : m.Calling) : m.frames ≠ [] := by
  obtain ⟨own, e⟩ := h.last
  have size := h.frames
  rw [e, leaves_append] at size
  intro none
  simp [none, leaves] at size

theorem fetch_atop {m : Machine ω} (h : m.frames ≠ []) (tasks : List Task)
    (callers : List (Bindings Float)) : (m.atop tasks callers).fetch = m.fetch := by
  obtain ⟨own, globals, frames, procedures, host⟩ := m
  cases frames with
  | nil => exact absurd rfl h
  | cons frame rest => rfl

theorem store_atop {m : Machine ω} (h : m.frames ≠ []) (tasks : List Task)
    (callers : List (Bindings Float)) (name : String) (x : Float) :
    (m.atop tasks callers).store name x = (m.store name x).atop tasks callers := by
  obtain ⟨own, globals, frames, procedures, host⟩ := m
  cases frames with
  | nil => exact absurd rfl h
  | cons frame rest =>
    by_cases mine : (frame.has name || !globals.has name) = true
    · simp [store, atop, mine]
    · simp [store, atop, mine]

variable [Host ω]

theorem view_atop {m : Machine ω} (h : m.frames ≠ []) (tasks : List Task)
    (callers : List (Bindings Float)) : (m.atop tasks callers).view = m.view := by
  simp only [view, fetch_atop h]
  rfl

theorem settle_atop (m : Machine ω) (tasks : List Task) (callers : List (Bindings Float)) :
    (m.atop tasks callers).settle = m.settle.map (·.atop tasks callers) := by
  have same : (m.atop tasks callers).host = m.host := rfl
  unfold settle
  rw [same]
  rcases Host.settle m.host with ⟨_ | _ | _, host⟩ <;> rfl

theorem carryOut_atop {m : Machine ω} (h : m.frames ≠ []) (tasks : List Task)
    (callers : List (Bindings Float)) (d : Deed) :
    (m.atop tasks callers).carryOut d = (m.carryOut d).map (·.atop tasks callers) := by
  cases d with
  | order o => exact settle_atop (m.perform (.order o)) tasks callers
  | store name x =>
    simp only [carryOut, store_atop h]
    rfl
  | push own =>
    simp only [carryOut, todo, atop, Progress.map, List.append_assoc]
  | define procedures block => rfl
  | call frame body => rfl

theorem attempt_atop {m : Machine ω} (h : m.frames ≠ []) (tasks : List Task)
    (callers : List (Bindings Float))
    (find : Bindings (Tree Node) → View → Except RuntimeError Deed) :
    (m.atop tasks callers).attempt find = (m.attempt find).map (·.atop tasks callers) := by
  have same : (m.atop tasks callers).procedures = m.procedures := rfl
  unfold attempt
  rw [view_atop h, same]
  cases find m.procedures m.view with
  | ok d => exact carryOut_atop h tasks callers d
  | error e => rfl

theorem proceed_atop {m : Machine ω} (h : m.frames ≠ []) (tasks : List Task)
    (callers : List (Bindings Float))
    (find : Bindings (Tree Node) → View → Except RuntimeError Deed) :
    (m.atop tasks callers).proceed find = (m.proceed find).map (·.atop tasks callers) := by
  have same : (m.atop tasks callers).host = m.host := rfl
  unfold proceed
  rw [same]
  rcases Host.poll m.host with ⟨_ | _, host⟩
  · exact attempt_atop (m := { m with host }) h tasks callers find
  · rfl

theorem step_atop {m : Machine ω} (h : m.Calling) (tasks : List Task)
    (callers : List (Bindings Float)) :
    (m.atop tasks callers).step = m.step.map (·.atop tasks callers) := by
  have some := h.frames_ne_nil
  obtain ⟨own, globals, frames, procedures, host⟩ := m
  cases own with
  | nil =>
    obtain ⟨own, e⟩ := h.last
    simp at e
  | cons task own =>
    let rest : Machine ω := ⟨own, globals, frames, procedures, host⟩
    cases task with
    | visit t => exact proceed_atop (m := rest) some tasks callers (deed · · t)
    | times count body => cases count <;> rfl
    | loop condition body =>
      exact proceed_atop (m := rest) some tasks callers fun _ v => round v condition body
    | leave =>
      cases frames with
      | nil => exact absurd rfl some
      | cons frame frames => rfl

theorem leaves_of_deed {procedures : Bindings (Tree Node)} {v : View} {t : Tree Node}
    {tasks : List Task} (h : deed procedures v t = .ok (.push tasks)) : leaves tasks = 0 := by
  cases yields_of_deed h with
  | block => exact leaves_visits _
  | times | loop | branchElse => rfl
  | @branch n condition body b => cases b <;> rfl

theorem leaves_of_round {v : View} {condition body : Tree Node} {tasks : List Task}
    (h : round v condition body = .ok (.push tasks)) : leaves tasks = 0 := by
  obtain ⟨b, value, done⟩ := ok_of_bind h
  cases done
  cases b <;> rfl

omit [Host ω] in
theorem length_frames_store (m : Machine ω) (name : String) (x : Float) :
    (m.store name x).frames.length = m.frames.length := by
  unfold store
  split
  · rename_i e
    rw [e]
  · rename_i frame callers e
    split <;> simp [e]

omit [Host ω] in
@[simp] theorem store_tasks (m : Machine ω) (name : String) (x : Float) :
    (m.store name x).tasks = m.tasks := by
  unfold store
  split
  · rfl
  · split <;> rfl

omit [Host ω] in
theorem store_procedures (m : Machine ω) (name : String) (x : Float) :
    (m.store name x).procedures = m.procedures := by
  unfold store
  split
  · rfl
  · split <;> rfl

omit [Host ω] in
/-- Where a value is put depends neither on what is left to do nor on the procedures. -/
theorem store_with (m : Machine ω) (name : String) (x : Float) (tasks : List Task)
    (procedures : Bindings (Tree Node)) :
    ({ m with tasks, procedures } : Machine ω).store name x =
      { m.store name x with tasks, procedures } := by
  obtain ⟨own, globals, frames, noted, host⟩ := m
  cases frames with
  | nil => rfl
  | cons frame callers =>
    unfold store
    dsimp only
    split <;> rfl

/-- A call that goes on is still under way or has just been left. One that breaks off has the frames
of the procedures yet to be left. -/
def InCall : Progress ω → Prop
  | .going m => m.Calling ∨ (m.tasks = [] ∧ m.frames = [])
  | .ended o m => o ≠ .finished ∧ m.frames.length = leaves m.tasks

theorem settle_calling {m : Machine ω} (h : m.Calling) : InCall m.settle := by
  unfold settle
  rcases Host.settle m.host with ⟨_ | _ | _, host⟩
  · exact .inl ⟨h.last, h.frames⟩
  · exact ⟨by simp, h.frames⟩
  · exact ⟨by simp, h.frames⟩

omit [Host ω] in
theorem Calling.todo {m : Machine ω} (h : m.Calling) {tasks : List Task}
    (none : leaves tasks = 0) : (m.todo tasks).Calling := by
  obtain ⟨own, e⟩ := h.last
  refine ⟨⟨tasks ++ own, by simp [Machine.todo, e]⟩, ?_⟩
  simp [Machine.todo, none, h.frames]

theorem carryOut_calling {m : Machine ω} (h : m.Calling) {d : Deed}
    (pushed : ∀ tasks, d = .push tasks → leaves tasks = 0) : InCall (m.carryOut d) := by
  cases d with
  | order o => exact settle_calling (m := m.perform (.order o)) ⟨h.last, h.frames⟩
  | store name x =>
    refine .inl ⟨?_, ?_⟩
    · simp only [perform, store_tasks]
      exact h.last
    · simp only [perform, store_tasks, length_frames_store]
      exact h.frames
  | push tasks => exact .inl (h.todo (pushed tasks rfl))
  | define procedures block =>
    have same : ({ m with procedures } : Machine ω).Calling := ⟨h.last, h.frames⟩
    have pushed : leaves [.visit block] = 0 := rfl
    exact .inl (same.todo pushed)
  | call frame body =>
    obtain ⟨own, e⟩ := h.last
    refine .inl ⟨⟨.visit body :: .leave :: own, by simp [Machine.todo, e]⟩, ?_⟩
    have size := h.frames
    simp only [Machine.todo, List.length_cons, leaves_append, leaves]
    omega

theorem attempt_calling {m : Machine ω} (h : m.Calling)
    {find : Bindings (Tree Node) → View → Except RuntimeError Deed}
    (pushed : ∀ procedures v tasks, find procedures v = .ok (.push tasks) → leaves tasks = 0) :
    InCall (m.attempt find) := by
  unfold attempt
  cases e : find m.procedures m.view with
  | ok d =>
    refine carryOut_calling h fun tasks same => ?_
    rw [same] at e
    exact pushed _ _ _ e
  | error e => exact ⟨by simp, h.frames⟩

theorem proceed_calling {m : Machine ω} (h : m.Calling)
    {find : Bindings (Tree Node) → View → Except RuntimeError Deed}
    (pushed : ∀ procedures v tasks, find procedures v = .ok (.push tasks) → leaves tasks = 0) :
    InCall (m.proceed find) := by
  unfold proceed
  rcases Host.poll m.host with ⟨_ | _, host⟩
  · exact attempt_calling (m := { m with host }) ⟨h.last, h.frames⟩ pushed
  · exact ⟨by simp, h.frames⟩

theorem step_calling {m : Machine ω} (h : m.Calling) : InCall m.step := by
  obtain ⟨own, globals, frames, procedures, host⟩ := m
  obtain ⟨⟨before, rfl⟩, size⟩ := h
  cases before with
  | nil =>
    cases frames with
    | nil => simp [leaves] at size
    | cons frame frames =>
      refine .inr ⟨rfl, ?_⟩
      simpa [leaves] using size
  | cons task before =>
    have rest (h : leaves (task :: (before ++ [Task.leave])) = leaves (before ++ [Task.leave])) :
        (⟨before ++ [.leave], globals, frames, procedures, host⟩ : Machine ω).Calling :=
      ⟨⟨before, rfl⟩, Eq.trans size h⟩
    cases task with
    | visit t => exact proceed_calling (rest rfl) (fun _ _ _ => leaves_of_deed)
    | times count body =>
      cases count with
      | zero => exact .inl (rest rfl)
      | succ count =>
        have pushed : leaves [.visit body, .times count body] = 0 := rfl
        exact .inl ((rest rfl).todo pushed)
    | loop condition body => exact proceed_calling (rest rfl) (fun _ _ _ => leaves_of_round)
    | leave =>
      refine .inl ⟨⟨before, rfl⟩, ?_⟩
      cases frames with
      | nil => simp [leaves] at size
      | cons frame frames => simpa [leaves] using size

/-- For so many steps a call does the same whatever comes after it and whoever makes it, or it has
come to its end before. -/
theorem steps_atop {m : Machine ω} (h : m.Calling) (n : Nat) :
    (∃ (j : Nat) (k : Machine ω), j ≤ n ∧ k.tasks = [] ∧ k.frames = [] ∧
      ∀ tasks callers, (m.atop tasks callers).steps j = .going (k.atop tasks callers)) ∨
    ∃ p, InCall p ∧
      ∀ tasks callers, (m.atop tasks callers).steps n = p.map (·.atop tasks callers) := by
  induction n generalizing m with
  | zero => exact .inr ⟨.going m, .inl h, fun tasks callers => rfl⟩
  | succ n ih =>
    have inside := step_calling h
    have alike := step_atop h
    cases e : m.step with
    | ended o k =>
      rw [e] at inside
      refine .inr ⟨.ended o k, inside, fun tasks callers => ?_⟩
      simp only [steps, alike, e, Progress.map]
    | going k =>
      rw [e] at inside
      have first (tasks : List Task) (callers : List (Bindings Float)) (j : Nat) :
          (m.atop tasks callers).steps (j + 1) = (k.atop tasks callers).steps j := by
        simp only [steps, alike, e, Progress.map]
      rcases inside with calling | ⟨no_tasks, no_frames⟩
      · rcases ih calling with ⟨j, l, le, no_tasks, no_frames, same⟩ | ⟨p, inside, same⟩
        · refine .inl ⟨j + 1, l, by omega, no_tasks, no_frames, fun tasks callers => ?_⟩
          rw [first, same]
        · refine .inr ⟨p, inside, fun tasks callers => ?_⟩
          rw [first, same]
      · refine .inl ⟨1, k, by omega, no_tasks, no_frames, fun tasks callers => ?_⟩
        rw [first]
        rfl

theorem steps_succ (m : Machine ω) (n : Nat) : m.steps (n + 1) = m.step.steps n := by
  rw [steps]
  cases m.step with
  | going k => rfl
  | ended o k => rfl

theorem steps_add (m : Machine ω) (i j : Nat) : m.steps (i + j) = (m.steps i).steps j := by
  induction i generalizing m with
  | zero => rw [Nat.zero_add]; rfl
  | succ i ih =>
    rw [Nat.succ_add]
    simp only [steps]
    cases m.step with
    | going k => exact ih k
    | ended o k => rfl

def call (limit : Nat) (m : Machine ω) (t : Tree Node) : Progress ω :=
  (({ m with tasks := [] }.attempt (deed · · t)).steps limit).unwound

def frameless (m : Machine ω) : Machine ω :=
  { m with frames := [] }

def entered (m : Machine ω) (frame : Bindings Float) (body : Tree Node) : Machine ω :=
  ⟨[.visit body, .leave], m.globals, [frame], m.procedures, m.host⟩

omit [Host ω] in
theorem entered_calling (m : Machine ω) (frame : Bindings Float) (body : Tree Node) :
    (m.entered frame body).Calling :=
  ⟨⟨[.visit body], rfl⟩, rfl⟩

theorem attempt_call (m : Machine ω) {t : Tree Node} (called : t.value.kind = .call) :
    m.attempt (deed · · t) =
      match prepare m.procedures m.view t.value t.children with
      | .ok (frame, body) => .going ((m.entered frame body).atop m.tasks m.frames)
      | .error e => .ended (.failed e) m := by
  obtain ⟨n, ts⟩ := t
  have kind : n.kind = .call := called
  simp only [attempt, deed, kind, Tree.value, Tree.children]
  cases prepare m.procedures m.view n ts with
  | ok entry => rfl
  | error e => rfl

theorem call_eq (limit : Nat) (m : Machine ω) {t : Tree Node} (called : t.value.kind = .call) :
    m.call limit t =
      match prepare m.procedures m.view t.value t.children with
      | .ok (frame, body) => (((m.entered frame body).atop [] m.frames).steps limit).unwound
      | .error e => .ended (.failed e) { m with tasks := [] } := by
  have alone : ({ m with tasks := [] } : Machine ω).view = m.view := rfl
  unfold call
  rw [attempt_call _ called, alone]
  dsimp only
  cases prepare m.procedures m.view t.value t.children with
  | ok entry => rfl
  | error e => rfl

/-- A call that is past has no variables of its own left. -/
def Quit : Progress ω → Prop
  | .going _ => True
  | .ended _ m => m.frames = []

theorem unwound_steps_atop {m : Machine ω} (h : m.Calling) (limit : Nat) :
    ∃ p, Quit p ∧ ∀ callers,
      ((m.atop [] callers).steps limit).unwound = p.map (·.atop [] callers) := by
  rcases steps_atop h limit with ⟨j, k, le, no_tasks, no_frames, same⟩ | ⟨p, inside, same⟩
  · obtain ⟨r, rfl⟩ := Nat.exists_eq_add_of_le le
    obtain ⟨tasks, globals, frames, procedures, host⟩ := k
    cases no_tasks
    cases no_frames
    cases r with
    | zero =>
      refine ⟨.going ⟨[], globals, [], procedures, host⟩, trivial, fun callers => ?_⟩
      rw [Nat.add_zero, same]
      rfl
    | succ r =>
      refine ⟨.ended .finished ⟨[], globals, [], procedures, host⟩, rfl, fun callers => ?_⟩
      rw [steps_add, same]
      rfl
  · cases p with
    | going k => exact ⟨.going k, trivial, fun callers => by rw [same]; rfl⟩
    | ended o k =>
      refine ⟨.ended o { k with tasks := [], frames := [] }, rfl, fun callers => ?_⟩
      rw [same]
      simp [Progress.map, Progress.unwound, unwind, atop, ← inside.2]

def given (frame : Bindings Float) : List (Tree Node) → List Float → Bindings Float
  | p :: ps, x :: xs => given (frame.put p.value.text x) ps xs
  | _, _ => frame

theorem bind_eq (v : View) (frame : Bindings Float) (ps as : List (Tree Node))
    (size : ps.length = as.length) :
    bind v frame ps as = (as.mapM v.evaluate).map (given frame ps) := by
  induction ps generalizing frame as with
  | nil =>
    cases as with
    | nil => rfl
    | cons a as => simp at size
  | cons p ps ih =>
    cases as with
    | nil => simp at size
    | cons a as =>
      simp only [bind, List.mapM_cons]
      cases v.evaluate a with
      | error e => rfl
      | ok x =>
        have rest := ih (frame.put p.value.text x) as (by simpa using size)
        change bind v (frame.put p.value.text x) ps as = _
        rw [rest]
        change _ = Except.map _ ((as.mapM v.evaluate) >>= fun xs => pure (x :: xs))
        cases as.mapM v.evaluate with
        | error e => rfl
        | ok xs => rfl

def arguments : Tree Node → List (Tree Node)
  | .node _ [_, list] => list.children
  | _ => []

theorem prepare_congr (procedures : Bindings (Tree Node)) {v w : View} {n : Node}
    {ts : List (Tree Node)} (agree : (arguments (.node n ts)).mapM v.evaluate =
      (arguments (.node n ts)).mapM w.evaluate) :
    prepare procedures v n ts = prepare procedures w n ts := by
  match ts, agree with
  | [], _ | [_], _ | _ :: _ :: _ :: _, _ => rfl
  | [name, list], agree =>
    change list.children.mapM v.evaluate = list.children.mapM w.evaluate at agree
    have pair : twoChildren n [name, list] = .ok (name, list) := rfl
    simp only [prepare, pair, Bind.bind, Except.bind]
    cases procedures.get? name.value.text with
    | none => rfl
    | some t =>
      obtain ⟨d, ds⟩ := t
      dsimp only
      cases twoChildren d ds with
      | error e => rfl
      | ok parts =>
        obtain ⟨⟨h, hs⟩, body⟩ := parts
        dsimp only
        cases twoChildren h hs with
        | error e => rfl
        | ok parts =>
          obtain ⟨own, parameters⟩ := parts
          dsimp only
          split
          · rfl
          · rename_i size
            have size := Decidable.of_not_not size
            rw [bind_eq v _ _ _ size, bind_eq w _ _ _ size, agree]

/-- A call is cut off from the variables of its callers. However it ends it leaves them as they
were. What it does depends on them through the values of its arguments only: the outcome, the global
variables and the host, whatever host that is, so also one that notes down what the turtle is
told. -/
theorem call_isolated (limit : Nat) (m : Machine ω) (t : Tree Node)
    (called : t.value.kind = .call) :
    (∀ o k, m.call limit t = .ended o k → k.frames = m.frames) ∧
      ∀ k : Machine ω, k.globals = m.globals → k.procedures = m.procedures → k.host = m.host →
        (arguments t).mapM k.view.evaluate = (arguments t).mapM m.view.evaluate →
        (k.call limit t).map frameless = (m.call limit t).map frameless := by
  constructor
  · intro o k e
    rw [call_eq limit m called] at e
    split at e
    · rename_i frame body ready
      obtain ⟨p, quit, same⟩ := unwound_steps_atop (entered_calling m frame body) limit
      rw [same] at e
      cases p with
      | going l => cases e
      | ended o l =>
        cases e
        have none : l.frames = [] := quit
        simp [atop, none]
    · cases e
      rfl
  · intro k globals procedures host agree
    have ready : prepare k.procedures k.view t.value t.children =
        prepare m.procedures m.view t.value t.children := by
      rw [procedures]
      obtain ⟨n, ts⟩ := t
      exact prepare_congr m.procedures agree
    rw [call_eq limit k called, call_eq limit m called, ready]
    cases prepare m.procedures m.view t.value t.children with
    | error e => simp [Progress.map, frameless, globals, procedures, host]
    | ok entry =>
      obtain ⟨frame, body⟩ := entry
      have entry : k.entered frame body = m.entered frame body := by
        simp [entered, globals, procedures, host]
      obtain ⟨p, -, same⟩ := unwound_steps_atop (entered_calling m frame body) limit
      dsimp only
      rw [entry, same, same]
      cases p <;> rfl

/-- A call `do f a` from two procedures that have different variables, with a global `a`. -/
theorem call_isolated_from_two_callers :
    let call : Tree Node := .node (.ofToken ⟨.keyword, "do"⟩)
      [.node (.ofToken ⟨.name, "f"⟩) [],
        .node (.ofGroup .list) [.node (.ofToken ⟨.name, "a"⟩) []]]
    let m : Machine (Stage Sketch) :=
      { Machine.new (.quiet .blank (.new Pace.fastest false)) with globals := ⟨[("a", 1)]⟩ }
    let k : Machine (Stage Sketch) := { m with frames := [⟨[("b", 2)]⟩] }
    call.value.kind = .call ∧ (arguments call).mapM k.view.evaluate = .ok [1] ∧
      (∀ o l, k.call 9 call = .ended o l → l.frames = k.frames) ∧
      (k.call 9 call).map frameless = (m.call 9 call).map frameless :=
  ⟨by decide, rfl, (call_isolated 9 _ _ (by decide)).1,
    (call_isolated 9 _ _ (by decide)).2 _ rfl rfl rfl rfl⟩

/-- In the midst of a run a call does what it does by itself. -/
theorem steps_of_call {limit : Nat} {m k : Machine ω} {t : Tree Node} {o : Outcome}
    (called : t.value.kind = .call) (h : m.call limit t = .ended o k) :
    if o = .finished then
      ∃ n ≤ limit, (m.attempt (deed · · t)).steps n = .going { k with tasks := m.tasks }
    else
      ∃ own inner, (m.attempt (deed · · t)).steps limit =
        .ended o { k with tasks := own ++ m.tasks, frames := inner ++ m.frames } := by
  rw [call_eq limit m called] at h
  rw [attempt_call m called]
  cases ready : prepare m.procedures m.view t.value t.children with
  | error e =>
    rw [ready] at h
    cases h
    exact ⟨[], [], rfl⟩
  | ok entry =>
    obtain ⟨frame, body⟩ := entry
    rw [ready] at h
    change Progress.unwound _ = _ at h
    let here : Machine ω := (m.entered frame body).atop m.tasks m.frames
    change if o = .finished then ∃ n ≤ limit, here.steps n = _
      else ∃ own inner, here.steps limit = _
    rcases steps_atop (entered_calling m frame body) limit with
      ⟨j, l, le, no_tasks, no_frames, same⟩ | ⟨p, inside, same⟩
    · obtain ⟨r, rfl⟩ := Nat.exists_eq_add_of_le le
      obtain ⟨tasks, globals, frames, procedures, host⟩ := l
      cases no_tasks
      cases no_frames
      rw [steps_add, same] at h
      cases r with
      | zero => cases h
      | succ r =>
        cases h
        exact ⟨j, le, same _ _⟩
    · rw [same] at h
      cases p with
      | going l => cases h
      | ended o l =>
        cases h
        rw [if_neg inside.1]
        refine ⟨l.tasks, l.frames, ?_⟩
        rw [same]
        rfl

end Machine

end TurtleGraphics
