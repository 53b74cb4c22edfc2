import TurtleGraphics.Proofs.Data.Reading
import TurtleGraphics.Proofs.Decimal.RoundTrip
import TurtleGraphics.Turtle

/-!
Strokes are read back from the data file they are written to, by the names of their fields. There
is no text for a number that is not finite, so these are not told apart.
-/

namespace TurtleGraphics

open Decimal

def unknown : Float :=
  Float.ofBits 0x7FF8000000000000

def known (x : Float) : Float :=
  match Binary64.ofFloat x with
  | .finite _ _ _ => x
  | _ => unknown

namespace Data

def field? (d : Data) (name : String) : Option Data :=
  match d with
  | .record fields => fields.lookup name
  | _ => none

def number? : Data → Option Float
  | .bare text => if text = "null" then some unknown else Decimal.read? text
  | _ => none

def natural? : Data → Option Nat
  | .bare text =>
    if text.toList ≠ [] ∧ text.toList.all Char.isDigit then some (valueOf text.toList) else none
  | _ => none

def color? (d : Data) : Option UInt32 := do
  let n ← d.natural?
  if n < UInt32.size then return UInt32.ofNat n else none

def point? (d : Data) : Option Point := do
  return ⟨← (← d.field? "x").number?, ← (← d.field? "y").number?⟩

def stroke? (d : Data) : Option Stroke := do
  match ← d.field? "op" with
  | .word "line" =>
    return .line (← (← d.field? "from").point?) (← (← d.field? "to").point?)
      (← (← d.field? "color").color?)
  | .word "move_to" => return .moveTo (← (← d.field? "to").point?)
  | .word "heading" => return .heading (← (← d.field? "degrees").number?)
  | .word "pen_up" => return .penUp
  | .word "pen_down" => return .penDown
  | .word "color" => return .color (← (← d.field? "rgb").color?)
  | _ => none

def strokes? : Data → Option (List Stroke)
  | .list items => items.mapM stroke?
  | _ => none

end Data

def Point.map (f : Float → Float) (p : Point) : Point :=
  ⟨f p.x, f p.y⟩

namespace Stroke

def map (f : Float → Float) : Stroke → Stroke
  | line start finish rgb => line (start.map f) (finish.map f) rgb
  | moveTo point => moveTo (point.map f)
  | heading degrees => heading (f degrees)
  | penUp => penUp
  | penDown => penDown
  | color rgb => color rgb

def recorded? (text : String) : Option (List Stroke) := do
  (← Data.read? text).strokes?

end Stroke

namespace Decimal

open Data (AllBare isBare allBare_append allBare_cons)

theorem allBare_of_digits {ds : List Char} (digits : Token.AllDigits ds) : AllBare ds := by
  intro c member
  simp [isBare, Char.isAlphanum, digits c member]

theorem allBare_zeros (n : ℕ) : AllBare (zeros n) :=
  allBare_of_digits (allDigits_zeros n)

theorem allBare_digitsOf (n : ℕ) : AllBare (digitsOf n) :=
  allBare_of_digits (allDigits_digitsOf n)

theorem allBare_placed (tenths : Bool) (x : Digits) : AllBare (placed tenths x) := by
  have digits := allBare_digitsOf x.digits
  unfold placed
  dsimp only
  split
  · rename_i e _
    have whole := allBare_append digits (allBare_zeros e)
    cases tenths with
    | false => exact allBare_append whole (by simp [AllBare])
    | true => exact allBare_append whole (allBare_cons rfl (allBare_zeros 1))
  · split
    · exact allBare_append (fun c member => digits c (List.mem_of_mem_take member))
        (allBare_cons rfl fun c member => digits c (List.mem_of_mem_drop member))
    · exact allBare_append (allBare_cons rfl (allBare_cons rfl (allBare_zeros _))) digits

theorem allBare_scientific (x : Digits) : AllBare (scientific x) := by
  have digits := allBare_digitsOf x.digits
  unfold scientific
  dsimp only
  have sign (k : ℤ) : isBare (if k < 0 then '-' else '+') = true := by
    split <;> rfl
  refine allBare_append ?_ (allBare_cons rfl (allBare_cons (sign _) (allBare_digitsOf _)))
  split
  · rename_i same
    rw [same] at digits
    obtain ⟨first, others⟩ := List.forall_mem_cons.mp digits
    exact allBare_cons first (allBare_cons rfl others)
  · exact digits

theorem allBare_write (l : Layout) (negative : Bool) (x : Digits) :
    AllBare (l.write negative x) := by
  have sign : AllBare (if negative then ['-'] else []) := by
    cases negative with
    | false => exact List.forall_mem_nil _
    | true => exact allBare_cons rfl (List.forall_mem_nil _)
  refine allBare_append sign ?_
  split
  · exact allBare_placed l.tenths x
  · exact allBare_scientific x

theorem write_ne_nil (l : Layout) (negative : Bool) (x : Digits) : l.write negative x ≠ [] := by
  obtain ⟨cs, text, ⟨c, first, -⟩, -⟩ := denotes_write l negative x
  rw [text]
  rintro none
  rw [List.append_eq_nil_iff.mp none |>.2] at first
  cases first

end Decimal

theorem legible_render (x : Float) : (Data.bare (data.render x)).Legible := by
  have null : (Data.bare "null").Legible := .bare (by decide) (List.all_eq_true.mp rfl)
  unfold Layout.render
  cases Binary64.ofFloat x with
  | nan => exact null
  | infinite negative => exact null
  | finite negative m e =>
    dsimp only
    refine .bare ?_ ?_
    · rw [String.toList_ofList]
      exact write_ne_nil _ _ _
    · rw [String.toList_ofList]
      exact allBare_write _ _ _

theorem number?_render (x : Float) : (Data.bare (data.render x)).number? = some (known x) := by
  unfold known
  cases finite : Binary64.ofFloat x with
  | nan => simp [Data.number?, Layout.render, finite, data]
  | infinite negative => simp [Data.number?, Layout.render, finite, data]
  | finite negative m e =>
    have read := read?_render data finite
    have other : data.render x ≠ "null" := by
      intro same
      have unread : read? "null" = none := by decide
      rw [same, unread] at read
      cases read
    exact (if_neg other).trans read

theorem legible_whole (rgb : UInt32) : (Stroke.whole rgb).Legible := by
  refine .bare ?_ ?_
  · rw [toList_toString]
    exact digitsOf_ne_nil _
  · rw [toList_toString]
    exact allBare_digitsOf _

theorem color?_whole (rgb : UInt32) : (Stroke.whole rgb).color? = some rgb := by
  have digits : (digitsOf rgb.toNat).all Char.isDigit = true :=
    List.all_eq_true.mpr (allDigits_digitsOf _)
  have natural : (Stroke.whole rgb).natural? = some rgb.toNat := by
    rw [Stroke.whole, Data.natural?, toList_toString, if_pos ⟨digitsOf_ne_nil _, digits⟩,
      valueOf_digitsOf]
  rw [Data.color?, natural, Option.bind_eq_bind, Option.bind_some, if_pos rgb.toNat_lt,
    UInt32.ofNat_toNat]
  rfl

theorem point?_data (p : Point) : p.data.point? = some (p.map known) := by
  simp [Data.point?, Point.data, Data.field?, number?_render, Point.map, List.lookup]

theorem stroke?_data (s : Stroke) : s.data.stroke? = some (s.map known) := by
  cases s <;>
    simp [Data.stroke?, Stroke.data, Data.field?, point?_data, color?_whole, number?_render,
      Stroke.map, List.lookup]

theorem legible_cons {name : String} {d : Data} {fields : List (String × Data)}
    (plain : name.toList.all Data.isQuotable = true) (first : d.Legible)
    (others : (Data.record fields).Legible) : (Data.record ((name, d) :: fields)).Legible := by
  cases others with
  | record names each =>
    exact .record (List.forall_mem_cons.mpr ⟨plain, names⟩)
      (List.forall_mem_cons.mpr ⟨first, each⟩)

theorem legible_nil : (Data.record []).Legible :=
  .record (List.forall_mem_nil _) (List.forall_mem_nil _)

theorem legible_point (p : Point) : p.data.Legible :=
  legible_cons rfl (legible_render p.x)
    (legible_cons rfl (legible_render p.y) legible_nil)

theorem legible_data (s : Stroke) : s.data.Legible := by
  cases s with
  | line start finish rgb =>
    exact legible_cons rfl (.word rfl) (legible_cons rfl (legible_point _)
      (legible_cons rfl (legible_point _)
        (legible_cons rfl (legible_whole rgb) legible_nil)))
  | moveTo point =>
    exact legible_cons rfl (.word rfl)
      (legible_cons rfl (legible_point point) legible_nil)
  | heading degrees =>
    exact legible_cons rfl (.word rfl)
      (legible_cons rfl (legible_render degrees) legible_nil)
  | penUp => exact legible_cons rfl (.word rfl) legible_nil
  | penDown => exact legible_cons rfl (.word rfl) legible_nil
  | color rgb =>
    exact legible_cons rfl (.word rfl)
      (legible_cons rfl (legible_whole rgb) legible_nil)

theorem strokes?_dataOf (strokes : List Stroke) :
    (Stroke.dataOf strokes).strokes? = some (strokes.map (Stroke.map known)) := by
  unfold Data.strokes? Stroke.dataOf
  dsimp only
  induction strokes with
  | nil => rfl
  | cons s strokes ih =>
    rw [List.map_cons, List.mapM_cons, ih, stroke?_data]
    rfl

/-- The text of the data file holds the strokes. -/
theorem recorded?_pretty (strokes : List Stroke) :
    Stroke.recorded? (Stroke.dataOf strokes).pretty = some (strokes.map (Stroke.map known)) := by
  have legible : (Stroke.dataOf strokes).Legible := .list fun d member => by
    obtain ⟨s, -, rfl⟩ := List.mem_map.mp member
    exact legible_data s
  rw [Stroke.recorded?, Data.read?_pretty legible]
  exact strokes?_dataOf strokes

end TurtleGraphics
