import CellGraph.Numeric.Binary64

/-!
# Decimal fractions

A decimal fraction is a coefficient and a power of ten, and `Decimal.toFloat` is the nearest double to it.
-/

namespace CellGraph

open Float.Model (UnpackedFloat)

/-- The number `coefficient · 10 ^ exponent`. -/
structure Decimal where
  coefficient : Nat
  exponent : Int
deriving DecidableEq, Repr

/-- The nearest double to a decimal fraction in parts, ties to the even mantissa.  A size beyond all doubles or below
half of the smallest one is seen from the powers of two `8 ^ exponent` and `2 ^ log2 coefficient`. -/
def Decimal.parts (d : Decimal) : UnpackedFloat :=
  let bits : Int := d.coefficient.log2 + 3 * d.exponent
  if d.coefficient = 0 then .zero .positive
  else if 0 ≤ d.exponent ∧ 1024 ≤ bits then .infinity .positive
  else if d.exponent < 0 ∧ bits < -1080 then .zero .positive
  else Binary64.ofRatio (d.coefficient * Nat.pow 10 d.exponent.toNat) (Nat.pow 10 (-d.exponent).toNat)

/-- The nearest double to a decimal fraction, ties to the even mantissa. -/
def Decimal.toFloat (d : Decimal) : Float := .ofModel (.pack d.parts)

end CellGraph
