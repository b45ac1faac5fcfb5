import CellGraph.Numeric.Binary64
import CellGraph.Numeric.Shortest

/-!
# Written forms of a double

A `Layout` holds what is left to choose once the shortest digits of a double are known: for which decimal exponents
they are written without an exponent part, whether an integer keeps `.0`, whether a positive exponent carries a plus
sign, and which way a tie of two neighbours goes.  `Layout.write` is the written form, and `fixed` is the form with a
given number of places.
-/

namespace CellGraph

open Float.Model.UnpackedFloat (Sign)

/-- The choices of a written form of doubles. -/
structure Layout where
  /-- The exponents `k` of `d.ddd · 10 ^ k` that are written out by position. -/
  positional : Int → Bool
  /-- Whether an integer that is written by position ends in `.0`. -/
  pointZero : Bool
  /-- Whether a positive exponent carries a plus sign. -/
  plusSign : Bool
  /-- Which of two equally near digit strings is written. -/
  tie : Tie

/-- The minus sign of a negative number, also of a negative zero. -/
def signText : Sign → List Char
  | .negative => ['-']
  | .positive => []

/-- The digits `ds` with the first of them at the place `10 ^ k`, written out by position. -/
def positionalText (pointZero : Bool) (ds : List Char) (k : Int) : List Char :=
  if k < 0 then '0' :: '.' :: (List.replicate (-k - 1).toNat '0' ++ ds)
  else
    let whole := k.toNat + 1
    if ds.length ≤ whole then
      ds ++ List.replicate (whole - ds.length) '0' ++ (if pointZero then ['.', '0'] else [])
    else ds.take whole ++ '.' :: ds.drop whole

/-- The digits `ds` with a point after the first of them, and the exponent `k`. -/
def scientificText (plusSign : Bool) (ds : List Char) (k : Int) : List Char :=
  ds.take 1 ++ (if ds.length ≤ 1 then [] else '.' :: ds.drop 1) ++ 'e' ::
    ((if k < 0 then ['-'] else if plusSign then ['+'] else []) ++ digitsOf k.natAbs)

namespace Layout

/-- The written form of a positive decimal fraction. -/
def decimalText (l : Layout) (d : Decimal) : List Char :=
  let ds := digitsOf d.coefficient
  let k := (ds.length : Int) - 1 + d.exponent
  if l.positional k then positionalText l.pointZero ds k else scientificText l.plusSign ds k

def write (l : Layout) (x : Float) : List Char :=
  match Binary64.parts x with
  | .notANumber => ['N', 'a', 'N']
  | .infinity s => signText s ++ ['i', 'n', 'f']
  | .zero s => signText s ++ '0' :: (if l.pointZero then ['.', '0'] else [])
  | .finite s m e _ => signText s ++ l.decimalText (.shortest l.tie m e)

end Layout

/-- The nearest integer to `num / den`, ties to even. -/
def divNearest (num den : Nat) : Nat :=
  let q := num / den
  match compare (2 * (num % den)) den with
  | .lt => q
  | .gt => q + 1
  | .eq => q + q % 2

/-- The number `q / 10 ^ places` written with `places` digits after the point. -/
def pointText (places q : Nat) : List Char :=
  let fraction := digitsOf (q % Nat.pow 10 places)
  digitsOf (q / Nat.pow 10 places) ++ '.' :: (List.replicate (places - fraction.length) '0' ++ fraction)

/-- A double rounded to a number of places after the point, ties to even.  The sign is kept, also if the result is
zero. -/
def fixed (places : Nat) (x : Float) : List Char :=
  match Binary64.parts x with
  | .notANumber => ['N', 'a', 'N']
  | .infinity s => signText s ++ ['i', 'n', 'f']
  | .zero s => signText s ++ pointText places 0
  | .finite s m e _ =>
    signText s ++ pointText places (divNearest (Decimal.numerator m e * Nat.pow 10 places) (Decimal.denominator e))

end CellGraph
