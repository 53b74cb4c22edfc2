/-!
A double is a sign and a whole number of some power of two, or infinite, or not a number. The
conversions here are exact: nothing is rounded except where a fraction is rounded to the nearest
double.
-/

namespace TurtleGraphics.Decimal

inductive Binary64
  | nan
  | infinite (negative : Bool)
  /-- `mantissa · 2 ^ exponent` -/
  | finite (negative : Bool) (mantissa : Nat) (exponent : Int)
deriving DecidableEq

namespace Binary64

/-- The bit of a mantissa that is not written down. -/
def leading : Nat :=
  1 <<< 52

def ofFloat (x : Float) : Binary64 :=
  let bits := x.toBits.toNat
  let negative := bits >>> 63 == 1
  let field : Nat := (bits >>> 52) % 2048
  let fraction : Nat := bits % leading
  if field = 2047 then if fraction = 0 then infinite negative else nan
  else if field = 0 then finite negative fraction (-1074)
  else finite negative (leading + fraction) ((field : Int) - 1075)

/-- The whole part of `mantissa · 2 ^ exponent`. -/
def wholePart (mantissa : Nat) (exponent : Int) : Nat :=
  match exponent with
  | .ofNat e => mantissa <<< e
  | .negSucc e => mantissa >>> (e + 1)

end Binary64

/-- How often a loop of `x` rounds runs: the whole part of `x`, at least 0 and below
`UInt64.size`. -/
def count (x : Float) : Nat :=
  match Binary64.ofFloat x with
  | .nan => 0
  | .infinite negative => if negative then 0 else UInt64.size - 1
  | .finite negative m e => if negative then 0 else min (Binary64.wholePart m e) (UInt64.size - 1)

theorem count_lt (x : Float) : count x < UInt64.size := by
  unfold count UInt64.size
  split
  · decide
  · split <;> decide
  · split <;> omega

/-- `num / den` rounded to a whole number, a half to the even neighbour. -/
def roundEven (num den : Nat) : Nat :=
  let low := num / den
  let rest := num % den
  if 2 * rest < den then low
  else if den < 2 * rest then low + 1
  else low + low % 2

def scaled (num den : Nat) (shift : Int) : Nat × Nat :=
  match shift with
  | .ofNat s => (num <<< s, den)
  | .negSucc s => (num, den <<< (s + 1))

def binaryExponent (num den : Nat) : Int :=
  let guess := (num.log2 : Int) - den.log2
  let (n, d) := scaled num den (-guess)
  if n < d then guess - 1 else guess

/-- The bits of the double nearest to `num / den`, without a sign. What is too great is infinite. -/
def nearestBits (num den : Nat) : Nat :=
  if num = 0 then 0
  else
    let unit := max (binaryExponent num den - 52) (-1074)
    let (n, d) := scaled num den (-unit)
    let m := roundEven n d
    let bits := if m < Binary64.leading then m else (unit + 1074).toNat * Binary64.leading + m
    min bits (2047 * Binary64.leading)

def nearest (negative : Bool) (num den : Nat) : Float :=
  Float.ofBits (UInt64.ofNat ((if negative then 1 <<< 63 else 0) + nearestBits num den))

end TurtleGraphics.Decimal
