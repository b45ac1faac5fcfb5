import CellGraph.Numeric.Numeral

/-!
# JSON numbers

A JSON number is an integer that fits in 64 bits, signed or unsigned, or a finite double.  A numeral is read as an
integer if it is spelled as one and fits (`Numeral.number?`).  An integer is never the same number as a double, and
the two zeros of the doubles are the same.
-/

namespace CellGraph

/-- A JSON number. -/
inductive Number where
  /-- An integer that fits in 64 bits, with or without a sign. -/
  | int (n : Int) (inRange : -9223372036854775808 ≤ n ∧ n ≤ 18446744073709551615)
  /-- A finite double. -/
  | float (x : Float) (finite : x.isFinite = true)
deriving DecidableEq

namespace Number

/-- The nearest double to a number. -/
def toFloat : Number → Float
  | .int n _ => Binary64.ofInt n
  | .float x _ => x

/-- Whether two numbers are of the same kind and equal. -/
def same : Number → Number → Bool
  | .int m _, .int n _ => m == n
  | .float x _, .float y _ => x == y
  | _, _ => false

/-- An integer, if it fits in 64 bits. -/
def ofInt? (n : Int) : Option Number :=
  if h : -9223372036854775808 ≤ n ∧ n ≤ 18446744073709551615 then some (.int n h) else none

/-- A double, if it is finite. -/
def ofFloat? (x : Float) : Option Number := if h : x.isFinite = true then some (.float x h) else none

end Number

/-- The JSON number that a numeral spells.  Without a point and a power of ten it is an integer if it fits in 64
bits, except that a zero with a sign is a double; all else is the nearest double, which has to be finite. -/
def Numeral.number? (n : Numeral) : Option Number :=
  let size := digitsValue n.whole
  let integer : Option Number :=
    if n.fraction.isSome || n.exponent.isSome || (n.negative && size == 0) then none
    else Number.ofInt? (if n.negative then -(size : Int) else size)
  integer.or (Number.ofFloat? n.toFloat)

end CellGraph
