import TurtleGraphics.Turtle.Sketch

/-!
A sketch keeps its pose and its strokes. The two never disagree: after any orders the strokes alone
tell where the turtle is, where it faces, whether its pen is on the paper and what colour it has.
-/

namespace TurtleGraphics

structure Pose where
  position : Point
  heading : Float
  penDown : Bool
  color : UInt32

namespace Stroke

def destination? : Stroke → Option Point
  | line _ finish _ => some finish
  | moveTo point => some point
  | _ => none

def direction? : Stroke → Option Float
  | heading degrees => some degrees
  | _ => none

def pen? : Stroke → Option Bool
  | penUp => some false
  | penDown => some true
  | _ => none

def color? : Stroke → Option UInt32
  | color rgb => some rgb
  | _ => none

end Stroke

namespace Pose

/-- The pose that strokes lead to from a blank sheet. The last stroke of each kind counts. -/
def after (log : List Stroke) : Pose where
  position := (log.filterMap Stroke.destination?).getLastD .origin
  heading := (log.filterMap Stroke.direction?).getLastD 0
  penDown := (log.filterMap Stroke.pen?).getLastD true
  color := (log.filterMap Stroke.color?).getLastD Palette.black.rgb

def move (p : Pose) (s : Stroke) : Pose where
  position := s.destination?.getD p.position
  heading := s.direction?.getD p.heading
  penDown := s.pen?.getD p.penDown
  color := s.color?.getD p.color

theorem getLastD_filterMap_concat {α β : Type} (f : α → Option β) (log : List α) (a : α) (b : β) :
    ((log ++ [a]).filterMap f).getLastD b = (f a).getD ((log.filterMap f).getLastD b) := by
  rw [List.filterMap_append]
  cases h : f a with
  | none => simp [h]
  | some c => simp [h]

theorem after_concat (log : List Stroke) (s : Stroke) :
    after (log ++ [s]) = (after log).move s := by
  simp only [after, move, getLastD_filterMap_concat]

theorem after_append (log new : List Stroke) : after (log ++ new) = new.foldl move (after log) := by
  induction new generalizing log with
  | nil => simp
  | cons s new ih =>
    rw [List.append_cons, ih, after_concat]
    rfl

end Pose

/-- Each line starts where the strokes before it lead to, has the colour they lead to, and stands
where they have put the pen on the paper. -/
def Linked (log : List Stroke) : Prop :=
  ∀ before start finish rgb rest, log = before ++ .line start finish rgb :: rest →
    start = (Pose.after before).position ∧ rgb = (Pose.after before).color ∧
      (Pose.after before).penDown = true

theorem linked_nil : Linked [] := by
  intro before start finish rgb rest same
  simp at same

theorem Linked.concat {log : List Stroke} (linked : Linked log) {s : Stroke}
    (last : ∀ start finish rgb, s = .line start finish rgb →
      start = (Pose.after log).position ∧ rgb = (Pose.after log).color ∧
        (Pose.after log).penDown = true) : Linked (log ++ [s]) := by
  intro before start finish rgb rest same
  -- the line is the new stroke, or one of those before
  rcases List.eq_nil_or_concat rest with rfl | ⟨rest, t, rfl⟩
  · obtain ⟨rfl, new⟩ := List.append_inj' same rfl
    exact last start finish rgb (List.head_eq_of_cons_eq new)
  · have shorter : log ++ [s] = (before ++ .line start finish rgb :: rest) ++ [t] := by
      simpa using same
    exact linked before start finish rgb rest (List.append_inj' shorter rfl).1

namespace Sketch

def pose (s : Sketch) : Pose :=
  ⟨s.position, s.heading, s.penDown, s.color⟩

def made (s : Sketch) : Order → List Stroke
  | .penUp => [.penUp]
  | .penDown => [.penDown]
  | .forward distance =>
    [if s.penDown then .line s.position (s.ahead distance) s.color
      else .moveTo (s.ahead distance)]
  | .turnLeft degrees => [.heading (Angle.normal (s.heading + degrees))]
  | .turnRight degrees => [.heading (Angle.normal (s.heading - degrees))]
  | .face degrees => [.heading (Angle.normal degrees)]
  | .jumpTo x y => [.moveTo ⟨x, y⟩]
  | .home => [.moveTo .origin, .heading (Angle.normal 0)]
  | .colorName color => [.color color.rgb]
  | .colorRgb rgb => [.color rgb]

theorem strokes_obey (s : Sketch) (o : Order) :
    (s.obey o).strokes.toList = s.strokes.toList ++ s.made o := by
  cases o with
  | forward distance =>
    cases down : s.penDown <;> simp [obey, forward, moveTo, record, made, down]
  | home => simp [obey, turnTo, moveTo, record, made]
  | penUp | penDown | turnLeft | turnRight | face | jumpTo | colorName | colorRgb =>
    simp [obey, turnTo, moveTo, setColor, record, made]

theorem pose_obey (s : Sketch) (o : Order) :
    (s.obey o).pose = (s.made o).foldl Pose.move s.pose := by
  cases o with
  | forward distance =>
    cases down : s.penDown <;>
      simp [obey, forward, moveTo, record, made, down, pose, Pose.move, Stroke.destination?,
        Stroke.direction?, Stroke.pen?, Stroke.color?]
  | penUp | penDown | turnLeft | turnRight | face | jumpTo | home | colorName | colorRgb => rfl

theorem length_made (s : Sketch) (o : Order) :
    (s.made o).length = 1 + if o = .home then 1 else 0 := by
  cases o <;> rfl

structure Faithful (s : Sketch) : Prop where
  pose : s.pose = Pose.after s.strokes.toList
  linked : Linked s.strokes.toList

theorem faithful_blank : blank.Faithful :=
  ⟨rfl, linked_nil⟩

theorem Faithful.obey {s : Sketch} (faithful : s.Faithful) (o : Order) : (s.obey o).Faithful := by
  obtain ⟨pose, linked⟩ := faithful
  constructor
  · rw [pose_obey, strokes_obey, Pose.after_append, pose]
  · rw [strokes_obey]
    cases o with
    | forward distance =>
      refine linked.concat fun start finish rgb same => ?_
      rw [← pose]
      split at same
      · rename_i down
        cases same
        exact ⟨rfl, rfl, down⟩
      · cases same
    | home =>
      have moved : Linked (s.strokes.toList ++ [.moveTo .origin]) :=
        linked.concat fun _ _ _ same => by cases same
      have turned := moved.concat (s := .heading (Angle.normal 0)) fun _ _ _ same => by cases same
      rwa [List.append_assoc] at turned
    | penUp | penDown | turnLeft | turnRight | face | jumpTo | colorName | colorRgb =>
      exact linked.concat fun _ _ _ same => by cases same

theorem Faithful.foldl {s : Sketch} (faithful : s.Faithful) (orders : List Order) :
    (orders.foldl Sketch.obey s).Faithful := by
  induction orders generalizing s with
  | nil => exact faithful
  | cons o orders ih => exact ih (faithful.obey o)

theorem strokes_foldl (s : Sketch) (orders : List Order) :
    s.strokes.toList <+: (orders.foldl obey s).strokes.toList := by
  induction orders generalizing s with
  | nil => exact List.prefix_refl _
  | cons o orders ih =>
    have one : s.strokes.toList <+: (s.obey o).strokes.toList := by
      rw [strokes_obey]
      exact List.prefix_append _ _
    exact one.trans (ih (s.obey o))

theorem size_foldl (s : Sketch) (orders : List Order) :
    (orders.foldl obey s).strokes.size = s.strokes.size + orders.length + orders.count .home := by
  induction orders generalizing s with
  | nil => rfl
  | cons o orders ih =>
    have one : (s.obey o).strokes.size = s.strokes.size + 1 + if o = .home then 1 else 0 := by
      rw [← Array.length_toList, strokes_obey, List.length_append, length_made, Nat.add_assoc,
        Array.length_toList]
    rw [List.foldl_cons, ih, one, List.length_cons, List.count_cons]
    simp only [beq_iff_eq]
    omega

def drawn (orders : List Order) : Sketch :=
  orders.foldl obey blank

structure Complete (orders : List Order) : Prop where
  /-- strokes are added at the end and never taken back -/
  grows : ∀ earlier later, orders = earlier ++ later →
    (drawn earlier).strokes.toList <+: (drawn orders).strokes.toList
  /-- the live pose is the one that the strokes lead to -/
  pose : (drawn orders).pose = Pose.after (drawn orders).strokes.toList
  linked : Linked (drawn orders).strokes.toList
  /-- a step leaves one line, or one move if the pen is up -/
  forward : ∀ distance, (drawn (orders ++ [.forward distance])).strokes.toList =
    (drawn orders).strokes.toList ++
      [if (drawn orders).penDown then
        .line (drawn orders).position ((drawn orders).ahead distance) (drawn orders).color
        else .moveTo ((drawn orders).ahead distance)]
  /-- an order makes one stroke, and `home` makes two -/
  size : (drawn orders).strokes.size = orders.length + orders.count .home

theorem drawn_complete (orders : List Order) : Complete orders where
  grows earlier later same := by
    rw [same, drawn, drawn, List.foldl_append]
    exact strokes_foldl _ later
  pose := (faithful_blank.foldl orders).pose
  linked := (faithful_blank.foldl orders).linked
  forward distance := by
    rw [drawn, List.foldl_append]
    exact strokes_obey (drawn orders) (.forward distance)
  size := by
    have none : blank.strokes.size = 0 := rfl
    rw [drawn, size_foldl, none, Nat.zero_add]

end Sketch

end TurtleGraphics
