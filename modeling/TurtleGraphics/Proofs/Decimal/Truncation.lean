import Mathlib.Data.Rat.Floor
import TurtleGraphics.Decimal.Binary64

/-!
What a double stands for, as a fraction, and its whole part. Shifting the mantissa gives the whole
part of the magnitude; the sign comes back afterwards, so that the whole part lies towards zero.
-/

namespace TurtleGraphics.Decimal

def Binary64.value? : Binary64 → Option ℚ
  | nan | infinite _ => none
  | finite negative mantissa exponent =>
    some ((if negative then -1 else 1) * (mantissa * 2 ^ exponent))

def truncate (q : ℚ) : ℤ :=
  if q < 0 then ⌈q⌉ else ⌊q⌋

theorem floor_eq_wholePart (mantissa : ℕ) (exponent : ℤ) :
    ⌊(mantissa : ℚ) * 2 ^ exponent⌋ = Binary64.wholePart mantissa exponent := by
  cases exponent with
  | ofNat e =>
    have whole : (mantissa : ℚ) * 2 ^ (Int.ofNat e) = (mantissa <<< e : ℕ) := by
      simp [Nat.shiftLeft_eq]
    rw [whole, Int.floor_natCast]
    rfl
  | negSucc e =>
    have fraction : (mantissa : ℚ) * 2 ^ Int.negSucc e = mantissa / (2 ^ (e + 1) : ℕ) := by
      rw [zpow_negSucc, div_eq_mul_inv]
      norm_cast
    have shifted : Binary64.wholePart mantissa (.negSucc e) = mantissa / 2 ^ (e + 1) :=
      Nat.shiftRight_eq_div_pow mantissa (e + 1)
    rw [fraction, Rat.floor_natCast_div_natCast, shifted, Int.natCast_div]

/-- The whole part of a magnitude with a sign. -/
theorem truncate_signed (negative : Bool) (mantissa : ℕ) (exponent : ℤ) :
    truncate ((if negative then -1 else 1) * (mantissa * 2 ^ exponent)) =
      (if negative then -1 else 1) * (Binary64.wholePart mantissa exponent : ℤ) := by
  have magnitude : (0 : ℚ) ≤ mantissa * 2 ^ exponent :=
    mul_nonneg (Nat.cast_nonneg mantissa) (zpow_nonneg (by norm_num) exponent)
  rw [← floor_eq_wholePart]
  cases negative with
  | false => simp [truncate, magnitude.not_gt]
  | true =>
    rcases magnitude.eq_or_lt with zero | positive
    · simp [truncate, ← zero]
    · simp [truncate, positive, Int.ceil_neg]

end TurtleGraphics.Decimal
