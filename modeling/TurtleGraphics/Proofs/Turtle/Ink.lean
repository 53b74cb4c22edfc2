import Mathlib.Algebra.Group.Nat.Defs
import TurtleGraphics.Palette
import TurtleGraphics.Proofs.Turtle.Pose
import TurtleGraphics.Run.Value

/-!
Colours as numbers of three bytes. Three channels from 0 to 255 are packed without touching one
another, and such a colour is written with six digits. A sketch has no colours but black and those
that it was told.
-/

namespace TurtleGraphics

theorem toNat_ofNat_channel {n : Nat} (small : n ≤ 255) : (UInt32.ofNat n).toNat = n :=
  UInt32.toNat_ofNat_of_lt' (Nat.lt_of_le_of_lt small (by decide))

/-- No channel spills into the next. -/
theorem toNat_pack {red green blue : Nat} (r : red ≤ 255) (g : green ≤ 255) (b : blue ≤ 255) :
    (View.pack (.ofNat red) (.ofNat green) (.ofNat blue)).toNat =
      red * 2 ^ 16 + green * 2 ^ 8 + blue := by
  have high : (UInt32.ofNat red <<< 16).toNat = red <<< 16 := by
    rw [UInt32.toNat_shiftLeft, toNat_ofNat_channel r]
    change red <<< 16 % 2 ^ 32 = red <<< 16
    rw [Nat.shiftLeft_eq]
    omega
  have middle : (UInt32.ofNat green <<< 8).toNat = green <<< 8 := by
    rw [UInt32.toNat_shiftLeft, toNat_ofNat_channel g]
    change green <<< 8 % 2 ^ 32 = green <<< 8
    rw [Nat.shiftLeft_eq]
    omega
  have upper : red <<< 16 ||| green <<< 8 = (red <<< 8 + green) <<< 8 := by
    rw [← Nat.shiftLeft_add_eq_or_of_lt (by rw [Nat.shiftLeft_eq]; omega)]
    simp only [Nat.shiftLeft_eq]
    omega
  rw [View.pack, UInt32.toNat_or, UInt32.toNat_or, high, middle, toNat_ofNat_channel b, upper,
    ← Nat.shiftLeft_add_eq_or_of_lt (by omega)]
  simp only [Nat.shiftLeft_eq]
  omega

def hexDigit (d : Nat) : Char :=
  ['0', '1', '2', '3', '4', '5', '6', '7', '8', '9', 'A', 'B', 'C', 'D', 'E', 'F'].getD d '0'

/-- The last so many digits of a number to the base 16, zeros in front among them. -/
def hexDigits : Nat → Nat → List Char
  | 0, _ => []
  | count + 1, n => hexDigits count (n / 16) ++ [hexDigit (n % 16)]

theorem toUpper_digitChar : ∀ d < 16, (Nat.digitChar d).toUpper = hexDigit d := by
  decide

theorem hexDigits_zero (count : Nat) : hexDigits count 0 = List.replicate count '0' := by
  induction count with
  | zero => rfl
  | succ count ih =>
    rw [hexDigits, Nat.zero_div, ih, List.replicate_succ']
    rfl

/-- A number that is short enough is filled up with zeros in front. -/
theorem replicate_append_toDigits {count n : Nat} (some : 0 < count) (short : n < 16 ^ count) :
    List.replicate (count - ((Nat.toDigits 16 n).map Char.toUpper).length) '0' ++
      (Nat.toDigits 16 n).map Char.toUpper = hexDigits count n := by
  induction count generalizing n with
  | zero => exact absurd some (Nat.lt_irrefl 0)
  | succ count ih =>
    by_cases one : n < 16
    · have digit : n % 16 = n := Nat.mod_eq_of_lt one
      have rest : n / 16 = 0 := Nat.div_eq_of_lt one
      rw [Nat.toDigits_of_lt_base one, hexDigits, rest, hexDigits_zero, digit,
        ← toUpper_digitChar n one]
      rfl
    · have shorter : n / 16 < 16 ^ count := by
        rw [Nat.pow_succ] at short
        omega
      have more : 0 < count := by
        rcases Nat.eq_zero_or_pos count with rfl | more
        · exact absurd short one
        · exact more
      rw [Nat.toDigits_of_base_le (by decide) (Nat.not_lt.mp one), hexDigits, ← ih more shorter,
        ← toUpper_digitChar _ (Nat.mod_lt n (by decide))]
      simp [Nat.add_sub_add_right]

structure Clean (rgb : UInt32) : Prop where
  small : rgb.toNat < 2 ^ 24
  written : hex rgb = String.ofList ('#' :: hexDigits 6 rgb.toNat)

theorem clean_of_lt {rgb : UInt32} (small : rgb.toNat < 2 ^ 24) : Clean rgb where
  small := small
  written := by
    have digits := replicate_append_toDigits (show 0 < 6 by decide) small
    simp only [hex, List.cons_append, digits]

theorem Palette.clean (p : Palette) : Clean p.rgb :=
  clean_of_lt (UInt32.lt_iff_toNat_lt.mp p.rgb_lt)

def Order.ink? : Order → Option UInt32
  | colorName color => some color.rgb
  | colorRgb rgb => some rgb
  | _ => none

def Stroke.ink? : Stroke → Option UInt32
  | line _ _ rgb => some rgb
  | color rgb => some rgb
  | _ => none

/-- A stroke that shows a colour writes it at the end. -/
theorem Stroke.display_of_ink {s : Stroke} {rgb : UInt32} (ink : s.ink? = some rgb) :
    ∃ text, s.display = text ++ hex rgb := by
  cases s with
  | line start finish other =>
    cases ink
    exact ⟨_, rfl⟩
  | color other =>
    cases ink
    exact ⟨_, rfl⟩
  | moveTo | heading | penUp | penDown => cases ink

namespace Sketch

structure Inked (P : UInt32 → Prop) (s : Sketch) : Prop where
  pen : P s.color
  strokes : ∀ stroke ∈ s.strokes.toList, ∀ rgb, stroke.ink? = some rgb → P rgb

variable {P : UInt32 → Prop} {s : Sketch} {o : Order}

theorem Inked.color_obey (inked : s.Inked P) (told : ∀ rgb, o.ink? = some rgb → P rgb) :
    P (s.obey o).color := by
  cases o with
  | forward =>
    simp only [obey, forward, moveTo, record]
    split <;> exact inked.pen
  | colorName | colorRgb => exact told _ rfl
  | penUp | penDown | turnLeft | turnRight | face | jumpTo | home => exact inked.pen

theorem Inked.made (inked : s.Inked P) (told : ∀ rgb, o.ink? = some rgb → P rgb) {stroke : Stroke}
    (made : stroke ∈ s.made o) {rgb : UInt32} (ink : stroke.ink? = some rgb) : P rgb := by
  cases o with
  | forward distance =>
    obtain rfl := List.mem_singleton.mp made
    split at ink
    · cases ink
      exact inked.pen
    · cases ink
  | colorName color | colorRgb color =>
    obtain rfl := List.mem_singleton.mp made
    cases ink
    exact told _ rfl
  | home =>
    have two : stroke = .moveTo .origin ∨ stroke = .heading (Angle.normal 0) := by
      simpa [Sketch.made] using made
    rcases two with rfl | rfl <;> cases ink
  | penUp | penDown | turnLeft | turnRight | face | jumpTo =>
    obtain rfl := List.mem_singleton.mp made
    cases ink

theorem Inked.obey (inked : s.Inked P) (told : ∀ rgb, o.ink? = some rgb → P rgb) :
    (s.obey o).Inked P where
  pen := inked.color_obey told
  strokes stroke member rgb ink := by
    rw [strokes_obey] at member
    rcases List.mem_append.mp member with old | new
    · exact inked.strokes stroke old rgb ink
    · exact inked.made told new ink

theorem Inked.foldl {orders : List Order} (inked : s.Inked P)
    (told : ∀ o ∈ orders, ∀ rgb, o.ink? = some rgb → P rgb) :
    (orders.foldl Sketch.obey s).Inked P := by
  induction orders generalizing s with
  | nil => exact inked
  | cons o orders ih =>
    exact ih (inked.obey (told o (by simp))) fun other later => told other (by simp [later])

/-- Black is the only colour that a sketch is not told. -/
theorem inked_drawn {orders : List Order} (black : P Palette.black.rgb)
    (told : ∀ o ∈ orders, ∀ rgb, o.ink? = some rgb → P rgb) : (drawn orders).Inked P :=
  Inked.foldl ⟨black, by simp [blank]⟩ told

end Sketch

end TurtleGraphics
