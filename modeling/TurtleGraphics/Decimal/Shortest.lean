import TurtleGraphics.Decimal.Binary64

/-!
The shortest decimal that reads back as a given double. Numbers between the halfway points to the
two neighbouring doubles read back as the double, the halfway points too if its mantissa is even.
For one digit, two, three and so on, the two decimals next to the double are tried; the first number
of digits for which one of them reads back is enough, and of two that do the nearer is taken.
-/

namespace TurtleGraphics.Decimal

structure Digits where
  digits : Nat
  exponent : Int
deriving DecidableEq

inductive Tie
  | up
  | even
deriving DecidableEq

structure Interval where
  low : Nat
  value : Nat
  high : Nat
  unit : Nat
  /-- whether the ends belong to the interval -/
  closed : Bool

namespace Interval

/-- Below a power of two the doubles are twice as dense, unless they are as dense as can be. -/
def ofBinary (m : Nat) (e : Int) : Interval :=
  let below := if m = Binary64.leading ∧ -1074 < e then 1 else 2
  let (factor, unit) := match e - 2 with
    | .ofNat s => (1 <<< s, 1)
    | .negSucc s => (1, 1 <<< (s + 1))
  ⟨(4 * m - below) * factor, 4 * m * factor, (4 * m + 2) * factor, unit, m % 2 == 0⟩

def inUnits (i : Interval) (exponent : Int) : Interval :=
  match exponent with
  | .ofNat s => { i with unit := i.unit * Nat.pow 10 s }
  | .negSucc s =>
    let f := Nat.pow 10 (s + 1)
    { i with low := i.low * f, value := i.value * f, high := i.high * f }

def holds (i : Interval) (d : Nat) : Bool :=
  if i.closed then i.low ≤ d * i.unit && d * i.unit ≤ i.high
  else i.low < d * i.unit && d * i.unit < i.high

def pick (tie : Tie) (i : Interval) : Option Nat :=
  let d := i.value / i.unit
  match i.holds d, i.holds (d + 1) with
  | false, false => none
  | true, false => some d
  | false, true => some (d + 1)
  | true, true =>
    let rest := i.value % i.unit
    if 2 * rest < i.unit then some d
    else if i.unit < 2 * rest then some (d + 1)
    else match tie with
      | .up => some (d + 1)
      | .even => some (d + d % 2)

def reaches (i : Interval) (exponent : Int) : Bool :=
  let j := i.inUnits exponent
  j.unit ≤ j.value

def decimalExponent (i : Interval) : Int :=
  let guess := ((i.value.log2 : Int) - i.unit.log2 - 1) * 30103 / 100000 - 1
  ([guess + 3, guess + 2, guess + 1].find? i.reaches).getD guess

end Interval

def dropZeros : Nat → Digits → Digits
  | 0, x => x
  | n + 1, x =>
    if x.digits % 10 = 0 then dropZeros n ⟨x.digits / 10, x.exponent + 1⟩ else x

/-- Seventeen digits are enough for every double. -/
def shortest (tie : Tie) (m : Nat) (e : Int) : Digits :=
  let i := Interval.ofBinary m e
  let first := i.decimalExponent
  let found := (List.range 17).findSome? fun (n : Nat) =>
    let exponent := first - n
    ((i.inUnits exponent).pick tie).map (⟨·, exponent⟩)
  dropZeros 17 (found.getD ⟨0, 0⟩)

end TurtleGraphics.Decimal
