/-!
# Exact views of a double

A finite double is a sign, a mantissa `m` and an exponent `e` that stand for the number `± m · 2 ^ e`.  The
operations here are computed on these integers, so each result is exact or correctly rounded: the nearest double to
an integer (`ofInt`), the integer that a double denotes (`toInt?`), rounding to an integer (`roundHalfAway`) and the
remainder of a division (`remainder`).
-/

namespace CellGraph.Binary64

open Float.Model (UnpackedFloat)
open Float.Model.UnpackedFloat (Sign)

/-- The class of a double, with sign, mantissa and exponent when it is finite and not zero. -/
def parts (x : Float) : UnpackedFloat := x.toModel.unpack

/-- The nearest double to `± m · 2 ^ e`, ties to the even mantissa. -/
def ofParts (s : Sign) (m : Nat) (e : Int) : Float := .ofModel (.pack (.round .binary64 s m e))

/-- The nearest double to `num / den`, ties to the even mantissa, for positive numbers.  The quotient is taken with at
least 54 bits, so one rounding step is left, which knows what the division left over. -/
def ofRatio (num den : Nat) : UnpackedFloat :=
  -- the quotient by `2 ^ e` has 54 or 55 bits, at least one more than a mantissa
  let e : Int := num.log2 - den.log2 - 54
  let num := num * Nat.pow 2 (-e).toNat
  let den := den * Nat.pow 2 e.toNat
  .roundWithAccuracy .binary64 .positive (num / den) e (UnpackedFloat.accuracyOfFraction (num % den) den)

/-- The infinity of a sign. -/
def infinity (s : Sign) : Float := .ofModel (.pack (.infinity s))

/-- The result of an operation that has none. -/
def notANumber : Float := .ofModel (.pack .notANumber)

/-- The nearest double to an integer, ties to the even mantissa. -/
def ofInt (n : Int) : Float := .ofModel (.ofInt n)

/-- The integer that a double denotes, if it denotes one. -/
def toInt? (x : Float) : Option Int :=
  match parts x with
  | .zero _ => some 0
  | .finite s m e _ =>
    if 0 ≤ e then some (s.apply (m * Nat.pow 2 e.toNat))
    else if m % Nat.pow 2 (-e).toNat = 0 then some (s.apply (m / Nat.pow 2 (-e).toNat : Nat))
    else none
  | .infinity _ => none
  | .notANumber => none

/-- The nearest integer to a double, as a double.  A half goes away from zero, and the sign of a zero is kept. -/
def roundHalfAway (x : Float) : Float :=
  match parts x with
  | .finite s m e _ =>
    if 0 ≤ e then x
    else
      let unit := Nat.pow 2 (-e).toNat
      ofParts s ((2 * m + unit) / (2 * unit)) 0
  | _ => x

/-- What is left of `x` when `y` is taken away from it as often as it fits in whole.  The sign is that of `x`, also
of a zero; there is no remainder of an infinity or by zero. -/
def remainder (x y : Float) : Float :=
  match parts x, parts y with
  | .notANumber, _ => notANumber
  | _, .notANumber => notANumber
  | .infinity _, _ => notANumber
  | _, .zero _ => notANumber
  | _, .infinity _ => x
  | .zero _, _ => x
  | .finite s m e _, .finite _ n f _ =>
    let low := min e f
    ofParts s ((m * Nat.pow 2 (e - low).toNat) % (n * Nat.pow 2 (f - low).toNat)) low

end CellGraph.Binary64
