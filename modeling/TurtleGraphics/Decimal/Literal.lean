import TurtleGraphics.Decimal.Binary64

/-!
Reading a decimal as the nearest double.

    number   = [sign] ("inf" | "infinity" | "nan" | decimal [exponent])
    decimal  = digit+ | digit+ "." digit* | digit* "." digit+
    exponent = ("e" | "E") [sign] digit+
    sign     = "+" | "-"

The words may be in letters of either case.
-/

namespace TurtleGraphics.Decimal

def valueOf (digits : List Char) : Nat :=
  digits.foldl (fun n c => 10 * n + (c.toNat - '0'.toNat)) 0

def signed : List Char → Bool × List Char
  | '-' :: cs => (true, cs)
  | '+' :: cs => (false, cs)
  | cs => (false, cs)

def exponent? : List Char → Option Int
  | [] => some 0
  | c :: cs =>
    if c == 'e' || c == 'E' then
      let (negative, ds) := signed cs
      if ds ≠ [] && ds.all Char.isDigit then
        some (if negative then -(valueOf ds : Int) else valueOf ds)
      else none
    else none

/-- The whole number and the power of ten whose product is meant. -/
def scientific? (cs : List Char) : Option (Nat × Int) :=
  let whole := cs.takeWhile Char.isDigit
  let rest := cs.dropWhile Char.isDigit
  let (places, rest) := match rest with
    | '.' :: r => (r.takeWhile Char.isDigit, r.dropWhile Char.isDigit)
    | r => ([], r)
  if whole = [] ∧ places = [] then none
  else (exponent? rest).map fun e => (valueOf (whole ++ places), e - places.length)

/-- `n · 10 ^ e` rounded. No double but 0 is below `10 ^ -330`, and none is above `10 ^ 310`. -/
def scale (negative : Bool) (n : Nat) (e : Int) : Float :=
  let size := e + (Nat.toDigits 10 n).length
  if n = 0 || size < -330 then nearest negative 0 1
  else if 320 < size then nearest negative (Nat.pow 10 320) 1
  else match e with
    | .ofNat e => nearest negative (n * Nat.pow 10 e) 1
    | .negSucc e => nearest negative n (Nat.pow 10 (e + 1))

def words : List (String × Float) :=
  let infinity := Float.ofBits 0x7FF0000000000000
  [("inf", infinity), ("infinity", infinity), ("nan", Float.ofBits 0x7FF8000000000000)]

def read? (text : String) : Option Float :=
  let (negative, cs) := signed text.toList
  let lower := String.ofList (cs.map Char.toLower)
  match words.lookup lower with
  | some x => some (if negative then -x else x)
  | none => (scientific? cs).map fun (n, e) => scale negative n e

end TurtleGraphics.Decimal
