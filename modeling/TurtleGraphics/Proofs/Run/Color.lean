import TurtleGraphics.Proofs.Decimal.Truncation
import TurtleGraphics.Proofs.Run.Failure
import TurtleGraphics.Proofs.Turtle.Ink

/-!
Colours that a program mixes. Three operands are looked at from left to right, each for its value
and then for its whole part. The first with which something is wrong ends the run, and otherwise the
turtle is told one colour of three bytes. So whatever programs a sketch has been used for, it shows
no colours but such.
-/

namespace TurtleGraphics

open Decimal (Binary64 truncate)

inductive IsByte (x : Float) : Nat → Prop
  | nan (unknown : Binary64.ofFloat x = .nan) : IsByte x 0
  | whole {q : ℚ} {n : Nat} (value : (Binary64.ofFloat x).value? = some q)
    (whole : truncate q = n) (small : n ≤ 255) : IsByte x n

inductive OutOfBytes (x : Float) : Prop
  | infinite {negative : Bool} (size : Binary64.ofFloat x = .infinite negative)
  | whole {q : ℚ} (value : (Binary64.ofFloat x).value? = some q)
    (outside : truncate q < 0 ∨ 255 < truncate q)

theorem IsByte.le {x : Float} {n : Nat} (byte : IsByte x n) : n ≤ 255 := by
  cases byte with
  | nan => exact Nat.zero_le 255
  | whole _ _ small => exact small

namespace View

theorem channelOf_cases (x : Float) :
    (∃ n, IsByte x n ∧ channelOf x = .ok (.ofNat n)) ∨
      OutOfBytes x ∧ channelOf x = .error (.colorOutOfRange x) := by
  unfold channelOf
  cases double : Binary64.ofFloat x with
  | nan => exact .inl ⟨0, .nan double, rfl⟩
  | infinite negative => exact .inr ⟨.infinite double, rfl⟩
  | finite negative m e =>
    have value := congrArg Binary64.value? double
    have whole := Decimal.truncate_signed negative m e
    dsimp only
    generalize Binary64.wholePart m e = w at whole ⊢
    split
    · rename_i outside
      refine .inr ⟨.whole value ?_, rfl⟩
      rw [whole]
      cases negative <;> simp at outside ⊢ <;> omega
    · rename_i inside
      refine .inl ⟨w, .whole value ?_ ?_, rfl⟩
      · rw [whole]
        cases negative with
        | false => simp
        | true => simp_all
      · simp at inside
        exact inside.1

def Byte (v : View) (t : Tree Node) (n : Nat) : Prop :=
  ∃ x, v.evaluate t = .ok x ∧ IsByte x n

inductive Flawed (v : View) (t : Tree Node) : RuntimeError → Prop
  | failed {e : RuntimeError} (wrong : v.evaluate t = .error e) : Flawed v t e
  | outside {x : Float} (value : v.evaluate t = .ok x) (out : OutOfBytes x) :
    Flawed v t (.colorOutOfRange x)

/-- What operands come to as a colour: three bytes side by side, the first the highest; or the flaw
of the first operand that has one. -/
inductive Mixes (v : View) : List (Tree Node) → Except RuntimeError UInt32 → Prop
  | color {a b c : Tree Node} {red green blue : Nat} {rgb : UInt32} (first : v.Byte a red)
    (second : v.Byte b green) (third : v.Byte c blue)
    (bytes : rgb.toNat = red * 2 ^ 16 + green * 2 ^ 8 + blue) : Mixes v [a, b, c] (.ok rgb)
  | flawed (before after : List (Tree Node)) {t : Tree Node} {e : RuntimeError}
    (fine : ∀ u ∈ before, ∃ n, v.Byte u n) (flaw : v.Flawed t e) :
    Mixes v (before ++ t :: after) (.error e)

theorem Byte.le {v : View} {t : Tree Node} {n : Nat} (byte : v.Byte t n) : n ≤ 255 := by
  obtain ⟨x, -, given⟩ := byte
  exact given.le

theorem Mixes.clean {v : View} {ts : List (Tree Node)} {rgb : UInt32}
    (mixes : v.Mixes ts (.ok rgb)) : Clean rgb := by
  cases mixes with
  | color first second third bytes =>
    have red := first.le
    have green := second.le
    have blue := third.le
    exact clean_of_lt (by omega)

theorem channel_cases (v : View) (t : Tree Node) :
    (∃ n, v.Byte t n ∧ v.channel t = .ok (.ofNat n)) ∨
      ∃ e, v.Flawed t e ∧ v.channel t = .error e := by
  cases value : v.evaluate t with
  | error e =>
    refine .inr ⟨e, .failed value, ?_⟩
    rw [channel, value]
    rfl
  | ok x =>
    have same : v.channel t = channelOf x := by
      rw [channel, value]
      rfl
    rcases channelOf_cases x with ⟨n, byte, given⟩ | ⟨out, refused⟩
    · exact .inl ⟨n, ⟨x, value, byte⟩, same.trans given⟩
    · exact .inr ⟨_, .outside value out, same.trans refused⟩

/-- The operands are looked at one after the other, as long as each is fine. -/
theorem order?_color (v : View) {n : Node} (kind : n.kind = .color) (a b c : Tree Node) :
    ∃ r, v.Mixes [a, b, c] r ∧ v.order? n [a, b, c] = some (r.map .colorRgb) := by
  obtain ⟨_, token⟩ := n
  obtain rfl := kind
  have order : v.order? ⟨.color, token⟩ [a, b, c] = some (v.channel a >>= fun red =>
      v.channel b >>= fun green => v.channel c >>= fun blue =>
        .ok (.colorRgb (pack red green blue))) := rfl
  rw [order]
  rcases v.channel_cases a with ⟨red, first, given⟩ | ⟨e, flaw, wrong⟩
  · rw [given]
    rcases v.channel_cases b with ⟨green, second, given⟩ | ⟨e, flaw, wrong⟩
    · simp only [given, bind, Except.bind]
      rcases v.channel_cases c with ⟨blue, third, given⟩ | ⟨e, flaw, wrong⟩
      · refine ⟨_, .color first second third (toNat_pack first.le second.le third.le), ?_⟩
        rw [given]
        rfl
      · refine ⟨.error e, .flawed [a, b] [] ?_ flaw, ?_⟩
        · simpa using ⟨⟨red, first⟩, ⟨green, second⟩⟩
        · rw [wrong]
          rfl
    · refine ⟨.error e, .flawed [a] [c] ?_ flaw, ?_⟩
      · simpa using ⟨red, first⟩
      · simp only [wrong, bind, Except.bind]
        rfl
  · refine ⟨.error e, .flawed [] [b, c] (by simp) flaw, ?_⟩
    rw [wrong]
    rfl

theorem threeChildren_ok {n : Node} {ts : List (Tree Node)} {a b c : Tree Node}
    (h : threeChildren n ts = .ok (a, b, c)) : ts = [a, b, c] := by
  unfold threeChildren at h
  split at h
  · cases h
    rfl
  · cases h

/-- A colour that is ordered is one of the palette, or has been mixed. -/
theorem clean_of_order? {v : View} {n : Node} {ts : List (Tree Node)} {o : Order}
    (given : v.order? n ts = some (.ok o)) {rgb : UInt32} (ink : o.ink? = some rgb) :
    Clean rgb := by
  cases kind : n.kind with
  | color =>
    have three : ∃ a b c, ts = [a, b, c] := by
      simp only [order?, kind, Option.some.injEq] at given
      obtain ⟨⟨a, b, c⟩, children, -⟩ := ok_of_bind given
      exact ⟨a, b, c, threeChildren_ok children⟩
    obtain ⟨a, b, c, rfl⟩ := three
    obtain ⟨r, mixes, order⟩ := v.order?_color kind a b c
    obtain ⟨mixed, rfl, told⟩ := ok_of_map (Option.some.inj (order.symm.trans given))
    subst told
    cases ink
    exact mixes.clean
  | namedColor p =>
    simp only [order?, kind, Option.some.injEq, Except.ok.injEq] at given
    subst given
    cases ink
    exact p.clean
  | forward | left | right | face =>
    simp only [order?, kind, Option.some.injEq] at given
    obtain ⟨x, -, rfl⟩ := ok_of_map given
    cases ink
  | jump =>
    simp only [order?, kind, Option.some.injEq] at given
    obtain ⟨_, -, given⟩ := ok_of_bind given
    obtain ⟨x, -, given⟩ := ok_of_bind given
    obtain ⟨y, -, given⟩ := ok_of_bind given
    cases given
    cases ink
  | home | penUp | penDown =>
    simp only [order?, kind, Option.some.injEq, Except.ok.injEq] at given
    subst given
    cases ink
  | _ => simp [order?, kind] at given

end View

section Told

variable {τ : Type}

structure Untold (l k : Logged (Stage τ)) : Prop where
  turtle : k.host.turtle = l.host.turtle
  effects : k.effects = l.effects

variable [Turtle τ]

structure Told (l k : Logged (Stage τ)) (o : Order) : Prop where
  turtle : k.host.turtle = Turtle.obey o l.host.turtle
  effects : k.effects = l.effects ++ [.order o]

theorem untold_poll (l : Logged (Stage τ)) : Untold l (Host.poll l).2 :=
  ⟨rfl, rfl⟩

theorem untold_settle (l : Logged (Stage τ)) : Untold l (Host.settle l).2 :=
  ⟨rfl, rfl⟩

theorem told_perform (l : Logged (Stage τ)) (o : Order) :
    Told l (Host.perform (.order o) l) o :=
  ⟨rfl, rfl⟩

theorem Told.around {l l' k k' : Logged (Stage τ)} {o : Order} (before : Untold l l')
    (told : Told l' k o) (after : Untold k k') : Told l k' o where
  turtle := by rw [after.turtle, told.turtle, before.turtle]
  effects := by rw [after.effects, told.effects, before.effects]

namespace Machine

inductive Colors (m : Machine (Logged (Stage τ))) (ts : List (Tree Node)) :
    Progress (Logged (Stage τ)) → Prop
  | stopped {k : Machine (Logged (Stage τ))} (asked : (Host.poll m.host).1 = true)
    (untold : Untold m.host k.host) : Colors m ts (.ended .stopped k)
  | told {p : Progress (Logged (Stage τ))} {rgb : UInt32} (unasked : (Host.poll m.host).1 = false)
    (mixes : m.view.Mixes ts (.ok rgb)) (clean : Clean rgb)
    (once : Told m.host p.machine.host (.colorRgb rgb))
    (fine : ∀ e k, p ≠ .ended (.failed e) k) : Colors m ts p
  | refused {e : RuntimeError} {k : Machine (Logged (Stage τ))}
    (unasked : (Host.poll m.host).1 = false) (mixes : m.view.Mixes ts (.error e))
    (untold : Untold m.host k.host) : Colors m ts (.ended (.failed e) k)

theorem told_carryOut (m : Machine (Logged (Stage τ))) (o : Order) :
    Told m.host (m.carryOut (.order o)).machine.host o := by
  have told := told_perform m.host o
  have here : Untold m.host m.host := ⟨rfl, rfl⟩
  have after := untold_settle (m.perform (.order o)).host
  have waits := (m.perform (.order o)).settle_awaits
  change Told m.host (m.perform (.order o)).settle.machine.host o
  generalize (m.perform (.order o)).settle = p at waits
  cases waits with
  | going settled | stopped settled | held settled =>
    rw [settled] at after
    exact told.around here after

theorem deed_color {procedures : Bindings (Tree Node)} {v : View} {n : Node}
    {ts : List (Tree Node)} {r : Except RuntimeError UInt32} (kind : n.kind = .color)
    (order : v.order? n ts = some (r.map .colorRgb)) :
    deed procedures v (.node n ts) = r.map fun rgb => .order (.colorRgb rgb) := by
  obtain ⟨_, token⟩ := n
  obtain rfl := kind
  simp only [deed, order]
  cases r <;> rfl

/-- Looking at the switches does not change what the program can see. -/
theorem view_of_untold {m : Machine (Logged (Stage τ))} {host : Logged (Stage τ)}
    (same : Untold m.host host) (tasks : List Task) :
    ({ m with tasks, host } : Machine _).view = m.view := by
  have x : Host.x host = Host.x m.host := congrArg Turtle.x same.turtle
  have y : Host.y host = Host.y m.host := congrArg Turtle.y same.turtle
  simp only [view, x, y]
  rfl

theorem step_colors {m : Machine (Logged (Stage τ))} {n : Node} {a b c : Tree Node}
    {tasks : List Task} (visit : m.tasks = .visit (.node n [a, b, c]) :: tasks)
    (kind : n.kind = .color) : m.Colors [a, b, c] m.step := by
  obtain ⟨r, mixes, order⟩ := m.view.order?_color kind a b c
  have polled := untold_poll m.host
  have turns := ({ m with tasks } : Machine _).proceed_turns
    fun table v => deed table v (.node n [a, b, c])
  have stepped : m.step = ({ m with tasks } : Machine _).proceed
      fun table v => deed table v (.node n [a, b, c]) := by
    rw [step, visit]
  rw [← stepped] at turns
  generalize m.step = p at turns
  cases turns with
  | @stopped k asked =>
    rw [asked] at polled
    exact .stopped (congrArg Prod.fst asked) polled
  | @refused k e asked wrong =>
    rw [asked] at polled
    rw [view_of_untold polled, deed_color kind order] at wrong
    obtain rfl := error_of_map wrong
    exact .refused (congrArg Prod.fst asked) mixes polled
  | @carried k d asked right =>
    rw [asked] at polled
    rw [view_of_untold polled, deed_color kind order] at right
    obtain ⟨rgb, rfl, rfl⟩ := ok_of_map right
    have told := told_carryOut ({ m with tasks, host := k } : Machine _) (.colorRgb rgb)
    refine .told (congrArg Prod.fst asked) mixes mixes.clean ?_ fun e f => carryOut_never_fails _ _
    exact told.around polled ⟨rfl, rfl⟩

end Machine

end Told

namespace Machine

section Orders

variable {ω : Type} [Host ω] {o : Order}

theorem effects_settle (m : Machine (Logged ω)) :
    m.settle.machine.host.effects = m.host.effects := by
  have same : (Host.settle m.host).2.effects = m.host.effects := rfl
  have waits := m.settle_awaits
  generalize m.settle = p at waits
  cases waits with
  | going settled | stopped settled | held settled =>
    rw [settled] at same
    exact same

theorem ordered_of_carryOut {m : Machine (Logged ω)} {d : Deed}
    (told : .order o ∈ (m.carryOut d).machine.host.effects) :
    .order o ∈ m.host.effects ∨ d = .order o := by
  cases d with
  | order p =>
    rw [carryOut, effects_settle] at told
    rcases List.mem_append.mp told with old | new
    · exact .inl old
    · cases List.mem_singleton.mp new
      exact .inr rfl
  | store name x =>
    rcases List.mem_append.mp told with old | new
    · rw [store_host] at old
      exact .inl old
    · cases List.mem_singleton.mp new
  | push | define | call => exact .inl told

theorem ordered_of_proceed {m : Machine (Logged ω)}
    {find : Bindings (Tree Node) → View → Except RuntimeError Deed}
    (told : .order o ∈ (m.proceed find).machine.host.effects) :
    .order o ∈ m.host.effects ∨ ∃ table v, find table v = .ok (.order o) := by
  have same : (Host.poll m.host).2.effects = m.host.effects := rfl
  have turns := m.proceed_turns find
  generalize m.proceed find = p at turns told
  cases turns with
  | stopped polled | refused polled =>
    rw [polled] at same
    exact .inl (same ▸ told)
  | carried polled found =>
    rw [polled] at same
    rcases ordered_of_carryOut told with old | rfl
    · exact .inl (same ▸ old)
    · exact .inr ⟨_, _, found⟩

/-- What a step tells the turtle is the order of a command. -/
theorem ordered_of_step {m : Machine (Logged ω)}
    (told : .order o ∈ m.step.machine.host.effects) :
    .order o ∈ m.host.effects ∨ ∃ v n ts, View.order? v n ts = some (.ok o) := by
  obtain ⟨tasks, globals, frames, procedures, host⟩ := m
  cases tasks with
  | nil => exact .inl told
  | cons task tasks =>
    cases task with
    | visit t =>
      refine (ordered_of_proceed (m := ⟨tasks, globals, frames, procedures, host⟩)
        told).imp_right ?_
      rintro ⟨table, v, found⟩
      cases yields_of_deed found with
      | order given => exact ⟨v, _, _, given⟩
    | loop condition body =>
      refine (ordered_of_proceed (m := ⟨tasks, globals, frames, procedures, host⟩)
        told).imp_right ?_
      rintro ⟨table, v, found⟩
      obtain ⟨b, -, done⟩ := ok_of_bind found
      cases done
    | times count body => cases count <;> exact .inl told
    | leave => exact .inl told

end Orders

structure Drawn (l : Logged (Stage Sketch)) : Prop where
  turtle : l.host.turtle = Sketch.drawn l.orders
  clean : ∀ o, .order o ∈ l.effects → ∀ rgb, o.ink? = some rgb → Clean rgb

theorem keeps_drawn :
    Host.Keeps fun l : Logged (Stage Sketch) => l.host.turtle = Sketch.drawn l.orders where
  perform e l same := by
    cases e with
    | order o =>
      rw [Logged.orders_order, Sketch.drawn, List.foldl_append, ← Sketch.drawn, ← same]
      rfl
    | store name x =>
      rw [Logged.orders_store]
      exact same
  poll _ same := same
  settle _ same := same

theorem Drawn.step {m : Machine (Logged (Stage Sketch))} (drawn : Drawn m.host) :
    Drawn m.step.machine.host where
  turtle := step_keeps keeps_drawn drawn.turtle
  clean o told rgb ink := by
    rcases ordered_of_step told with old | ⟨v, n, ts, given⟩
    · exact drawn.clean o old rgb ink
    · exact View.clean_of_order? given ink

theorem Drawn.run {m : Machine (Logged (Stage Sketch))} (drawn : Drawn m.host) (limit : Nat)
    (t : Tree Node) : Drawn (m.run limit t).machine.host := by
  have started : Drawn (m.start t).host := ⟨drawn.turtle, drawn.clean⟩
  have after : Drawn ((m.start t).steps limit).machine.host :=
    steps_induction (P := fun k => Drawn k.host) (fun _ there => there.step) started limit
  unfold Machine.run
  cases ran : (m.start t).steps limit with
  | going k | ended o k =>
    rw [ran] at after
    exact after

inductive Used : Machine (Logged (Stage Sketch)) → Prop
  | new {stage : Stage Sketch} (blank : stage.turtle = .blank) : Used (.new ⟨stage, []⟩)
  | ran {m : Machine (Logged (Stage Sketch))} (used : Used m) (limit : Nat) (t : Tree Node) :
    Used (m.run limit t).machine
  | switched {m : Machine (Logged (Stage Sketch))} (used : Used m) (pace : Pace)
    (pending : List Pace.Moment) (script : Nat → List Pace.Moment) :
    Used { m with host := { m.host with host := { m.host.host with pace, pending, script } } }

theorem Used.drawn {m : Machine (Logged (Stage Sketch))} (used : Used m) : Drawn m.host := by
  induction used with
  | new blank => exact ⟨blank, fun _ told => by cases told⟩
  | ran _ limit t ih => exact ih.run limit t
  | switched _ _ _ _ ih => exact ⟨ih.turtle, ih.clean⟩

structure ShowsBytes (m : Machine (Logged (Stage Sketch))) : Prop where
  command : ∀ n a b c tasks, m.tasks = .visit (.node n [a, b, c]) :: tasks → n.kind = .color →
    m.Colors [a, b, c] m.step
  told : ∀ rgb, .order (.colorRgb rgb) ∈ m.host.effects → Clean rgb
  pen : Clean m.host.host.turtle.color
  strokes : ∀ s ∈ m.host.host.turtle.strokes.toList, ∀ rgb, s.ink? = some rgb →
    Clean rgb ∧ ∃ text, s.display = text ++ hex rgb

/-- At every moment of every run of whatever programs. -/
theorem showsBytes_of_used {m : Machine (Logged (Stage Sketch))} (used : Used m) :
    m.ShowsBytes := by
  obtain ⟨turtle, clean⟩ := used.drawn
  have told : ∀ o ∈ m.host.orders, ∀ rgb, o.ink? = some rgb → Clean rgb := by
    intro o member
    obtain ⟨e, logged, given⟩ := List.mem_filterMap.mp member
    cases e with
    | order p =>
      cases given
      exact clean o logged
    | store => cases given
  have inked : m.host.host.turtle.Inked Clean :=
    turtle ▸ Sketch.inked_drawn Palette.black.clean told
  constructor
  · intro n a b c tasks visit kind
    exact step_colors visit kind
  · intro rgb logged
    exact clean _ logged rgb rfl
  · exact inked.pen
  · intro s member rgb ink
    exact ⟨inked.strokes s member rgb ink, Stroke.display_of_ink ink⟩

/-- About to mix a colour from 255.9, -0.5 and 300, after a run that has left the pen orange. -/
theorem showsBytes_of_used_twice :
    let block (ts : List (Tree Node)) : Tree Node := .node (.ofGroup .block) ts
    let number (text : String) : Tree Node := .node (.ofToken ⟨.number, text⟩) []
    let orange := block [.node (.ofToken ⟨.keyword, "orange"⟩) []]
    let mixed := block [.node (.ofToken ⟨.keyword, "color"⟩)
      [number "255.9", .node (.ofToken ⟨.symbol, "-"⟩) [number "0.5"], number "300"]]
    let m : Machine (Logged (Stage Sketch)) :=
      (((Machine.new ⟨.quiet .blank (.new Pace.fastest false), []⟩).run 9 orange).machine.run 1
        mixed).machine
    Used m ∧ m.tasks.length = 1 ∧ m.host.host.turtle.color = Palette.orange.rgb ∧ m.ShowsBytes :=
  ⟨.ran (.ran (.new rfl) 9 _) 1 _, rfl, rfl,
    showsBytes_of_used (.ran (.ran (.new rfl) 9 _) 1 _)⟩

end Machine

end TurtleGraphics
