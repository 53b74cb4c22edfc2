import Mathlib.Data.List.Nodup
import TurtleGraphics.Proofs.Run.Call
import TurtleGraphics.Proofs.Run.Log
import TurtleGraphics.Proofs.Run.Variables

/-!
Whose variable a name means. While a procedure runs no global variable appears or disappears, and a
variable that a procedure makes for itself never has the name of a global one. So within a call a
name goes on meaning what it has meant once.
-/

namespace TurtleGraphics

structure Scopes where
  globals : Bindings Float
  frames : List (Bindings Float)

inductive Moves (callee : Option (Tree Node)) : Scopes → Scopes → Prop
  | still {s : Scopes} : Moves callee s s
  | makeGlobal {globals : Bindings Float} (name : String) (x : Float) :
    Moves callee ⟨globals, []⟩ ⟨globals.put name x, []⟩
  | setGlobal {globals : Bindings Float} {frames : List (Bindings Float)} (name : String)
    (x : Float) (known : globals.has name = true) :
    Moves callee ⟨globals, frames⟩ ⟨globals.put name x, frames⟩
  | setOwn {globals frame : Bindings Float} {callers : List (Bindings Float)} (name : String)
    (x : Float) (own : frame.has name = true ∨ globals.has name = false) :
    Moves callee ⟨globals, frame :: callers⟩ ⟨globals, frame.put name x :: callers⟩
  | enter {globals frame : Bindings Float} {frames : List (Bindings Float)} {d : Tree Node}
    (called : callee = some d) (bound : ∀ x, frame.has x = true → x ∈ d.parameters) :
    Moves callee ⟨globals, frames⟩ ⟨globals, frame :: frames⟩
  | leave {globals frame : Bindings Float} {callers : List (Bindings Float)} :
    Moves callee ⟨globals, frame :: callers⟩ ⟨globals, callers⟩

/-- A name that has a value gets another one, and all names stay as they are. -/
theorem Bindings.has_put_of_has {b : Bindings Float} {name : String} (known : b.has name = true)
    (v : Float) (x : String) : (b.put name v).has x = b.has x := by
  rw [has_put]
  by_cases same : x = name
  · simp [same, known]
  · simp [same]

theorem Bindings.get?_of_not_has {b : Bindings Float} {x : String} (unknown : b.has x = false) :
    b.get? x = none :=
  Option.not_isSome_iff_eq_none.mp (Bool.not_eq_true _ ▸ unknown)

namespace Moves

variable {callee : Option (Tree Node)} {s s' : Scopes}

theorem globals_kept (move : Moves callee s s') {x : String} (known : s.globals.has x = true) :
    s'.globals.has x = true := by
  cases move with
  | makeGlobal name v => simp [Bindings.has_put, known]
  | setGlobal name v _ => simp [Bindings.has_put, known]
  | still | setOwn | enter | leave => exact known

/-- Only with no procedure running can a global variable appear. -/
theorem globals_fixed (move : Moves callee s s') (called : s.frames ≠ []) (x : String) :
    s'.globals.has x = s.globals.has x := by
  cases move with
  | makeGlobal name v => exact absurd rfl called
  | setGlobal name v known => exact Bindings.has_put_of_has known v x
  | still | setOwn | enter | leave => rfl

end Moves

namespace Machine

variable {ω : Type}

def scopes (m : Machine ω) : Scopes :=
  ⟨m.globals, m.frames⟩

def callee (m : Machine ω) : Option (Tree Node) :=
  match m.tasks with
  | .visit (.node _ (name :: _)) :: _ => m.procedures.get? name.value.text
  | _ => none

theorem store_moves (callee : Option (Tree Node)) (m : Machine ω) (name : String) (x : Float) :
    Moves callee m.scopes (m.store name x).scopes := by
  obtain ⟨tasks, globals, frames, procedures, host⟩ := m
  cases frames with
  | nil => exact .makeGlobal name x
  | cons frame callers =>
    simp only [store]
    split
    · rename_i own
      exact .setOwn name x (by simpa using own)
    · rename_i other
      simp only [Bool.or_eq_true, Bool.not_eq_true', not_or, Bool.not_eq_true,
        Bool.not_eq_false] at other
      exact .setGlobal name x other.2

variable [Host ω]

theorem settle_moves (callee : Option (Tree Node)) (m : Machine ω) :
    Moves callee m.scopes m.settle.machine.scopes := by
  unfold settle
  split <;> exact .still

theorem carryOut_moves {callee : Option (Tree Node)} (m : Machine ω) {d : Deed}
    (entry : ∀ frame body, d = .call frame body →
      ∃ p, callee = some p ∧ ∀ x, frame.has x = true → x ∈ p.parameters) :
    Moves callee m.scopes (m.carryOut d).machine.scopes := by
  cases d with
  | order o => exact settle_moves callee (m.perform (.order o))
  | store name x => exact store_moves callee m name x
  | push | define => exact .still
  | call frame body =>
    obtain ⟨p, called, bound⟩ := entry frame body rfl
    exact .enter called bound

theorem attempt_moves {callee : Option (Tree Node)} (m : Machine ω)
    {find : Bindings (Tree Node) → View → Except RuntimeError Deed}
    (entry : ∀ v frame body, find m.procedures v = .ok (.call frame body) →
      ∃ p, callee = some p ∧ ∀ x, frame.has x = true → x ∈ p.parameters) :
    Moves callee m.scopes (m.attempt find).machine.scopes := by
  unfold attempt
  split
  · rename_i d found
    apply carryOut_moves
    intro frame body same
    exact entry _ frame body (same ▸ found)
  · exact .still

theorem proceed_moves {callee : Option (Tree Node)} (m : Machine ω)
    {find : Bindings (Tree Node) → View → Except RuntimeError Deed}
    (entry : ∀ v frame body, find m.procedures v = .ok (.call frame body) →
      ∃ p, callee = some p ∧ ∀ x, frame.has x = true → x ∈ p.parameters) :
    Moves callee m.scopes (m.proceed find).machine.scopes := by
  unfold proceed
  split
  · exact .still
  · rename_i host _
    exact attempt_moves { m with host } entry

theorem step_moves (m : Machine ω) : Moves m.callee m.scopes m.step.machine.scopes := by
  obtain ⟨tasks, globals, frames, procedures, host⟩ := m
  cases tasks with
  | nil => exact .still
  | cons task tasks =>
    let rest : Machine ω := ⟨tasks, globals, frames, procedures, host⟩
    cases task with
    | visit t =>
      refine proceed_moves rest fun v frame body found => ?_
      cases yields_of_deed found with
      | @call n ts _ _ kind ready =>
        cases ready_of_prepare ready with
        | intro known counted bound =>
          refine ⟨_, known, ?_⟩
          intro x has
          rcases (has_bind counted bound).mp has with none | parameter
          · cases none
          · exact parameter
    | times count body => cases count <;> exact .still
    | loop condition body =>
      refine proceed_moves rest fun v frame body found => ?_
      obtain ⟨b, -, done⟩ := ok_of_bind found
      cases done
    | leave =>
      cases frames with
      | nil => exact .still
      | cons frame callers => exact .leave

def after (m : Machine ω) (n : Nat) : Machine ω :=
  (m.steps n).machine

theorem moves_after (m : Machine ω) (n : Nat) :
    Moves (m.after n).callee (m.after n).scopes (m.after (n + 1)).scopes := by
  simp only [after, steps_add]
  cases m.steps n with
  | ended o k => exact .still
  | going k =>
    have move := step_moves k
    simp only [Progress.steps, steps]
    cases e : k.step with
    | going l =>
      rw [e] at move
      exact move
    | ended o l =>
      rw [e] at move
      exact move

end Machine

structure Activation where
  since : Nat
  procedure : Tree Node

/-- The calls under way after one more step, innermost first. A call begins when there is a frame
more and is left when there is one less. -/
def Scopes.follow (n : Nat) (callee : Option (Tree Node)) (s s' : Scopes)
    (calls : List Activation) : List Activation :=
  if s.frames.length < s'.frames.length then (callee.map (⟨n, ·⟩)).toList ++ calls
  else if s'.frames.length < s.frames.length then calls.tail
  else calls

inductive Scope
  | own
  | shared
deriving DecidableEq

def scopeOf (frame globals : Bindings Float) (name : String) : Option Scope :=
  if frame.has name then some .own else if globals.has name then some .shared else none

theorem scopeOf_eq_own {frame globals : Bindings Float} {name : String} :
    scopeOf frame globals name = some .own ↔ frame.has name = true := by
  unfold scopeOf
  split
  · simp [*]
  · split <;> simp [*]

theorem scopeOf_eq_shared {frame globals : Bindings Float} {name : String} :
    scopeOf frame globals name = some .shared ↔
      frame.has name = false ∧ globals.has name = true := by
  unfold scopeOf
  split
  · simp [*]
  · split <;> simp [*]

theorem scopeOf_eq_none {frame globals : Bindings Float} {name : String} :
    scopeOf frame globals name = none ↔ frame.has name = false ∧ globals.has name = false := by
  unfold scopeOf
  split
  · simp [*]
  · split <;> simp [*]

theorem Machine.fetch_of_scope {ω : Type} {m : Machine ω} {frame : Bindings Float}
    {callers : List (Bindings Float)} (running : m.frames = frame :: callers) (x : String) :
    m.fetch x = match scopeOf frame m.globals x with
      | some .own => frame.get? x
      | some .shared => m.globals.get? x
      | none => none := by
  have looked : m.fetch x = (frame.get? x).or (m.globals.get? x) := by
    simp only [fetch, running]
  rw [looked]
  split
  · rename_i own
    have bound := scopeOf_eq_own.mp own
    obtain ⟨v, found⟩ := Option.isSome_iff_exists.mp bound
    rw [found]
    rfl
  · rename_i shared
    rw [Bindings.get?_of_not_has (scopeOf_eq_shared.mp shared).1]
    rfl
  · rename_i unknown
    have nowhere := scopeOf_eq_none.mp unknown
    rw [Bindings.get?_of_not_has nowhere.1, Bindings.get?_of_not_has nowhere.2]
    rfl

/-- What a name has meant it goes on to mean. -/
def Persists (frame globals frame' globals' : Bindings Float) : Prop :=
  ∀ x w, scopeOf frame globals x = some w → scopeOf frame' globals' x = some w

theorem persists_of_has {frame globals frame' globals' : Bindings Float}
    (own : ∀ x, frame.has x = true → frame'.has x = true)
    (shared : ∀ x, frame.has x = false → globals.has x = true →
      frame'.has x = false ∧ globals'.has x = true) : Persists frame globals frame' globals' := by
  intro x w means
  cases w with
  | own => exact scopeOf_eq_own.mpr (own x (scopeOf_eq_own.mp means))
  | shared =>
    have known := scopeOf_eq_shared.mp means
    exact scopeOf_eq_shared.mpr (shared x known.1 known.2)

structure Tracked (globals : Nat → Bindings Float) (n : Nat) (calls : List Activation)
    (s : Scopes) : Prop where
  length : calls.length = s.frames.length
  distinct : calls.Nodup
  since : ∀ a ∈ calls, a.since < n
  begun : ∀ a ∈ calls, ∀ x, s.globals.has x = (globals a.since).has x
  made : ∀ a frame, (a, frame) ∈ calls.zip s.frames → ∀ x, frame.has x = true →
    x ∉ a.procedure.parameters → s.globals.has x = false

/-- A call under way after a step has just begun or was under way before. -/
def Continued (n : Nat) (calls calls' : List Activation) (s s' : Scopes) : Prop :=
  ∀ a frame', (a, frame') ∈ calls'.zip s'.frames → a.since = n ∨
    ∃ frame, (a, frame) ∈ calls.zip s.frames ∧ Persists frame s.globals frame' s'.globals

section Follow

variable {globals : Nat → Bindings Float} {n : Nat} {callee : Option (Tree Node)} {s s' : Scopes}
  {calls : List Activation}

theorem follow_still {g g' : Bindings Float} {frames frames' : List (Bindings Float)}
    (same : frames.length = frames'.length) :
    Scopes.follow n callee ⟨g, frames⟩ ⟨g', frames'⟩ calls = calls := by
  simp [Scopes.follow, same]

theorem follow_enter {g frame : Bindings Float} {frames : List (Bindings Float)} {d : Tree Node}
    (called : callee = some d) :
    Scopes.follow n callee ⟨g, frames⟩ ⟨g, frame :: frames⟩ calls = ⟨n, d⟩ :: calls := by
  simp [Scopes.follow, called]

theorem follow_leave {g frame : Bindings Float} {callers : List (Bindings Float)} :
    Scopes.follow n callee ⟨g, frame :: callers⟩ ⟨g, callers⟩ calls = calls.tail := by
  have fewer : ¬ callers.length + 1 < callers.length := by omega
  simp [Scopes.follow, fewer]

theorem Tracked.follow (tracked : Tracked globals n calls s) (now : globals n = s.globals)
    (move : Moves callee s s') :
    Tracked globals (n + 1) (Scopes.follow n callee s s' calls) s' := by
  have later : ∀ a ∈ calls, a.since < n + 1 := by
    intro a member
    have := tracked.since a member
    omega
  cases move with
  | still =>
    rw [follow_still rfl]
    exact ⟨tracked.length, tracked.distinct, later, tracked.begun, tracked.made⟩
  | makeGlobal name v =>
    rw [follow_still rfl]
    obtain rfl : calls = [] := List.length_eq_zero_iff.mp tracked.length
    exact ⟨rfl, .nil, by simp, by simp, by simp⟩
  | setGlobal name v known =>
    rw [follow_still rfl]
    have same := Bindings.has_put_of_has known v
    constructor
    · exact tracked.length
    · exact tracked.distinct
    · exact later
    · intro a member x
      exact (same x).trans (tracked.begun a member x)
    · intro a frame member x own stranger
      exact (same x).trans (tracked.made a frame member x own stranger)
  | @setOwn g frame callers name v own =>
    rw [follow_still (by simp)]
    refine ⟨tracked.length, tracked.distinct, later, tracked.begun, ?_⟩
    have made := tracked.made
    cases calls with
    | nil => simp
    | cons b calls =>
      intro a frame' member x has stranger
      rcases List.mem_cons.mp member with top | below
      · cases top
        rw [Bindings.has_put] at has
        rcases Bool.or_eq_true_iff.mp has with same | old
        · obtain rfl := of_decide_eq_true same
          rcases own with old | fresh
          · exact made b frame (by simp) x old stranger
          · exact fresh
        · exact made b frame (by simp) x old stranger
      · exact made a frame' (List.mem_cons_of_mem _ below) x has stranger
  | @enter g frame frames d called bound =>
    rw [follow_enter called]
    constructor
    · simp [tracked.length]
    · rw [List.nodup_cons]
      refine ⟨?_, tracked.distinct⟩
      intro member
      exact absurd (tracked.since _ member) (Nat.lt_irrefl n)
    · intro a member
      rcases List.mem_cons.mp member with rfl | old
      · exact Nat.lt_succ_self n
      · exact later a old
    · intro a member x
      rcases List.mem_cons.mp member with rfl | old
      · rw [now]
      · exact tracked.begun a old x
    · intro a frame' member x has stranger
      rcases List.mem_cons.mp member with top | below
      · cases top
        exact absurd (bound x has) stranger
      · exact tracked.made a frame' below x has stranger
  | @leave g frame callers =>
    rw [follow_leave]
    cases calls with
    | nil => exact absurd tracked.length (by simp)
    | cons b calls =>
      constructor
      · simpa using tracked.length
      · exact (List.nodup_cons.mp tracked.distinct).2
      · exact fun a member => later a (by simp_all)
      · exact fun a member => tracked.begun a (by simp_all)
      · intro a frame' member
        exact tracked.made a frame' (List.mem_cons_of_mem _ member)

theorem Tracked.continued (tracked : Tracked globals n calls s) (move : Moves callee s s') :
    Continued n calls (Scopes.follow n callee s s' calls) s s' := by
  intro a frame' member
  cases move with
  | still =>
    rw [follow_still rfl] at member
    exact .inr ⟨frame', member, fun x w means => means⟩
  | makeGlobal name v => simp at member
  | setGlobal name v known =>
    rw [follow_still rfl] at member
    refine .inr ⟨frame', member, persists_of_has (fun x own => own) ?_⟩
    intro x foreign shared
    exact ⟨foreign, (Bindings.has_put_of_has known v x).trans shared⟩
  | @setOwn g frame callers name v own =>
    rw [follow_still (by simp)] at member
    cases calls with
    | nil => simp at member
    | cons b calls =>
      rcases List.mem_cons.mp member with top | below
      · cases top
        refine .inr ⟨frame, by simp, persists_of_has ?_ ?_⟩
        · intro x old
          simp [Bindings.has_put, old]
        · intro x foreign shared
          have differs : x ≠ name := by
            rintro rfl
            rcases own with old | fresh
            · exact absurd old (by simp [foreign])
            · exact absurd shared (by simp [fresh])
          exact ⟨by simp [Bindings.has_put, differs, foreign], shared⟩
      · exact .inr ⟨frame', List.mem_cons_of_mem _ below, fun x w means => means⟩
  | @enter g frame frames d called bound =>
    rw [follow_enter called] at member
    rcases List.mem_cons.mp member with top | below
    · cases top
      exact .inl rfl
    · exact .inr ⟨frame', below, fun x w means => means⟩
  | @leave g frame callers =>
    rw [follow_leave] at member
    cases calls with
    | nil => simp at member
    | cons b calls =>
      exact .inr ⟨frame', List.mem_cons_of_mem _ member, fun x w means => means⟩

end Follow

namespace Machine

variable {ω : Type} [Host ω]

def calls (m : Machine ω) : Nat → List Activation
  | 0 => []
  | n + 1 =>
    Scopes.follow n (m.after n).callee (m.after n).scopes (m.after (n + 1)).scopes (m.calls n)

def active (m : Machine ω) (n : Nat) : List (Activation × Bindings Float) :=
  (m.calls n).zip (m.after n).frames

structure WellScoped (m : Machine ω) : Prop where
  /-- each call under way has a frame of its own -/
  frames : ∀ n, (m.calls n).length = (m.after n).frames.length
  /-- no global variable disappears -/
  kept : ∀ i j x, i ≤ j → (m.after i).globals.has x = true → (m.after j).globals.has x = true
  /-- while a procedure runs no global variable appears -/
  fixed : ∀ n, (m.after n).frames ≠ [] → ∀ x,
    (m.after (n + 1)).globals.has x = (m.after n).globals.has x
  /-- so the global names are those at the start of each call under way, the outermost included -/
  begun : ∀ n, ∀ a ∈ m.calls n, a.since < n ∧
    ∀ x, (m.after n).globals.has x = (m.after a.since).globals.has x
  /-- a variable that a procedure has made for itself does not have the name of a global one -/
  made : ∀ n a frame, (a, frame) ∈ m.active n → ∀ x, frame.has x = true →
    x ∉ a.procedure.parameters → (m.after n).globals.has x = false
  /-- a name that is looked up is looked up where it belongs -/
  fetched : ∀ n frame callers, (m.after n).frames = frame :: callers → ∀ x,
    (m.after n).fetch x = match scopeOf frame (m.after n).globals x with
      | some .own => frame.get? x
      | some .shared => (m.after n).globals.get? x
      | none => none
  /-- within one call a name goes on meaning what it has meant -/
  resolved : ∀ i j a frame frame', i ≤ j → (a, frame) ∈ m.active i → (a, frame') ∈ m.active j →
    ∀ x w, scopeOf frame (m.after i).globals x = some w →
      scopeOf frame' (m.after j).globals x = some w

variable {m : Machine ω}

theorem tracked_calls (fresh : m.frames = []) (n : Nat) :
    Tracked (fun i => (m.after i).globals) n (m.calls n) (m.after n).scopes := by
  induction n with
  | zero =>
    have none : (m.after 0).scopes.frames = [] := fresh
    exact ⟨by simp [calls, none], .nil, by simp [calls], by simp [calls], by simp [calls]⟩
  | succ n ih => exact ih.follow rfl (m.moves_after n)

theorem globals_kept {i j : Nat} (le : i ≤ j) {x : String}
    (known : (m.after i).globals.has x = true) : (m.after j).globals.has x = true := by
  induction le with
  | refl => exact known
  | step _ ih => exact (m.moves_after _).globals_kept ih

theorem frame_unique (fresh : m.frames = []) {n : Nat} {a : Activation}
    {frame frame' : Bindings Float} (first : (a, frame) ∈ m.active n)
    (second : (a, frame') ∈ m.active n) : frame = frame' := by
  have tracked := tracked_calls fresh n
  have firsts : (m.active n).map Prod.fst = m.calls n :=
    List.map_fst_zip (Nat.le_of_eq tracked.length)
  have distinct : ((m.active n).map Prod.fst).Nodup := firsts ▸ tracked.distinct
  have same := List.inj_on_of_nodup_map distinct first second rfl
  exact congrArg Prod.snd same

theorem persists_of_le (fresh : m.frames = []) {i j : Nat} (le : i ≤ j) {a : Activation}
    {frame frame' : Bindings Float} (first : (a, frame) ∈ m.active i)
    (second : (a, frame') ∈ m.active j) :
    Persists frame (m.after i).globals frame' (m.after j).globals := by
  induction le generalizing frame' with
  | refl =>
    obtain rfl := frame_unique fresh first second
    exact fun x w means => means
  | @step j le ih =>
    have early : a.since < i := (tracked_calls fresh i).since a (List.of_mem_zip first).1
    have continued := (tracked_calls fresh j).continued (m.moves_after j)
    rcases continued a frame' second with begun | ⟨middle, before, persists⟩
    · -- a call that has begun since is another one
      have : i ≤ j := le
      omega
    · exact fun x w means => persists x w (ih before x w means)

theorem wellScoped_start (m : Machine ω) (t : Tree Node) : (m.start t).WellScoped := by
  have fresh : (m.start t).frames = [] := rfl
  constructor
  · exact fun n => (tracked_calls fresh n).length
  · exact fun i j x le known => globals_kept le known
  · exact fun n called x => ((m.start t).moves_after n).globals_fixed called x
  · exact fun n a member =>
      ⟨(tracked_calls fresh n).since a member, (tracked_calls fresh n).begun a member⟩
  · exact fun n a frame member => (tracked_calls fresh n).made a frame member
  · exact fun n frame callers running x => fetch_of_scope running x
  · exact fun i j a frame frame' le first second => persists_of_le fresh le first second

example :
    let again : Tree Node := .node (.ofToken ⟨.keyword, "do"⟩)
      [.node (.ofToken ⟨.name, "f"⟩) [], .node (.ofGroup .list) []]
    let header : Tree Node := .node (.ofGroup .header)
      [.node (.ofToken ⟨.name, "f"⟩) [], .node (.ofGroup .list) []]
    let f : Tree Node := .node (.ofToken ⟨.keyword, "def"⟩) [header, again]
    let program : Tree Node := .node (.ofGroup .program) [again, .node (.ofGroup .list) [f]]
    let m : Machine (Stage Sketch) := .new (.quiet .blank (.new Pace.fastest false))
    ((m.start program).calls 4).map (·.since) = [3, 2, 1] := by
  rfl

end Machine

end TurtleGraphics
