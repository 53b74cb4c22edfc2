import TurtleGraphics.Decimal.Shortest

/-!
How the digits of a double are laid out. A layout says which numbers are written positionally, what
stands for those that are not finite, and whether a whole number shows a place after the point.
-/

namespace TurtleGraphics.Decimal

structure Layout where
  tie : Tie
  /-- whether a number is written positionally whose first digit counts `10 ^ exponent` -/
  positional : Int → Bool
  /-- whether a whole number ends in `.0` -/
  tenths : Bool
  nan : String
  /-- the text of infinity, and of minus infinity -/
  infinity : Bool → String

def digitsOf (n : Nat) : List Char :=
  Nat.toDigits 10 n

def zeros (n : Nat) : List Char :=
  List.replicate n '0'

def placed (tenths : Bool) (x : Digits) : List Char :=
  let ds := digitsOf x.digits
  match x.exponent with
  | .ofNat e => ds ++ zeros e ++ (if tenths then ['.', '0'] else [])
  | .negSucc e =>
    let places := e + 1
    if places < ds.length then
      ds.take (ds.length - places) ++ '.' :: ds.drop (ds.length - places)
    else '0' :: '.' :: zeros (places - ds.length) ++ ds

def scientific (x : Digits) : List Char :=
  let ds := digitsOf x.digits
  let exponent := x.exponent + (ds.length - 1 : Nat)
  let mantissa := match ds with
    | d :: e :: rest => d :: '.' :: e :: rest
    | ds => ds
  mantissa ++ 'e' :: (if exponent < 0 then '-' else '+') :: digitsOf exponent.natAbs

namespace Layout

def write (l : Layout) (negative : Bool) (x : Digits) : List Char :=
  let first := x.exponent + ((digitsOf x.digits).length - 1 : Nat)
  (if negative then ['-'] else []) ++
    if l.positional first then placed l.tenths x else scientific x

def render (l : Layout) (x : Float) : String :=
  match Binary64.ofFloat x with
  | .nan => l.nan
  | .infinite negative => l.infinity negative
  | .finite negative m e =>
    String.ofList (l.write negative (if m = 0 then ⟨0, 0⟩ else shortest l.tie m e))

end Layout

/-- The shortest digits, never with an exponent; a whole number has no point. -/
def plain : Layout where
  tie := .up
  positional _ := true
  tenths := false
  nan := "NaN"
  infinity negative := if negative then "-inf" else "inf"

/-- The shortest digits as in a data file: an exponent below 0.00001 and from `10 ^ 16` on, and
nothing for what is not finite. -/
def data : Layout where
  tie := .even
  positional first := -5 ≤ first && first < 16
  tenths := true
  nan := "null"
  infinity _ := "null"

end TurtleGraphics.Decimal
