import CellGraph.Numeric.Binary64
import CellGraph.Numeric.Decimal
import CellGraph.Numeric.Digits

/-!
# Numerals

A numeral is a sign, digits before and after a point, and a power of ten.  `readFloat?` reads a whole text as a
double: a numeral with at least one digit, an infinity or "not a number".  The value is the nearest double, so a
numeral beyond the range reads as an infinity.  Only so many digits of its power of ten count (`powerValue`).
-/

namespace CellGraph

structure Numeral where
  negative : Bool
  /-- The digits before the point. -/
  whole : List Char
  /-- The digits after the point, if there is a point. -/
  fraction : Option (List Char)
  /-- The power of ten, if there is one. -/
  exponent : Option Int
deriving DecidableEq, Repr

namespace Numeral

/-- The size of the number, without its sign. -/
def size (n : Numeral) : Decimal :=
  let fraction := n.fraction.getD []
  ⟨digitsValue (n.whole ++ fraction), n.exponent.getD 0 - fraction.length⟩

def toFloat (n : Numeral) : Float := if n.negative then -n.size.toFloat else n.size.toFloat

/-- A sign at the start of a text, and the rest. -/
def scanSign : List Char → Bool × List Char
  | '-' :: cs => (true, cs)
  | '+' :: cs => (false, cs)
  | cs => (false, cs)

/-- The limit up to which the digits of a power of ten are read. -/
def powerLimit : Nat := 65536

/-- The power of ten that digits spell, read from the left until it reaches the limit.  Digits after that do not
count. -/
def powerValue (ds : List Char) : Nat := ds.foldl (fun n c => if n < powerLimit then 10 * n + digitValue c else n) 0

/-- The power of ten at the start of a text, if there is one, and the rest.  After the letter there has to be a
digit; `value` says what the digits stand for. -/
def scanExponent? (value : List Char → Nat) : List Char → Option (Option Int × List Char)
  | [] => some (none, [])
  | c :: cs =>
    if c == 'e' || c == 'E' then
      let (negative, cs) := scanSign cs
      match cs.takeWhile isDigit with
      | [] => none
      | ds =>
        let n : Int := value ds
        some (some (if negative then -n else n), cs.dropWhile isDigit)
    else some (none, c :: cs)

/-- The digits after a point at the start of a text, if there is one, and the rest. -/
def scanFraction : List Char → Option (List Char) × List Char
  | '.' :: cs => (some (cs.takeWhile isDigit), cs.dropWhile isDigit)
  | cs => (none, cs)

/-- A numeral without its sign that is a whole text.  There has to be a digit before or after the point. -/
def ofText? (negative : Bool) (cs : List Char) : Option Numeral :=
  let whole := cs.takeWhile isDigit
  let (fraction, rest) := scanFraction (cs.dropWhile isDigit)
  if whole ++ fraction.getD [] == [] then none
  else
    match scanExponent? powerValue rest with
    | some (exponent, []) => some ⟨negative, whole, fraction, exponent⟩
    | _ => none

end Numeral

/-- The double that a text spells: a numeral, `inf`, `infinity` or `nan`, with or without a sign, in any case. -/
def readFloat? (cs : List Char) : Option Float :=
  let (negative, cs) := Numeral.scanSign cs
  let word := String.ofList (cs.map Char.toLower)
  if word == "inf" || word == "infinity" then
    some (Binary64.infinity (if negative then .negative else .positive))
  else if word == "nan" then some Binary64.notANumber
  else (Numeral.ofText? negative cs).map Numeral.toFloat

end CellGraph
