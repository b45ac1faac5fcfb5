import CellGraph.Json.Value
import CellGraph.Numeric.Numeral
import CellGraph.Text.Blank

/-!
# Values as numbers

How formulas see values: every value but arrays, objects and other texts has a number (`Value.toFloat?`), a double
that denotes a small integer is that integer as a value (`Value.ofFloat?`), two keys of a table match when they are
equal as doubles or the same value (`Value.keyMatches`), and a number is rounded to some decimal places
(`Value.roundTo`).
-/

namespace CellGraph.Value

/-- The double that a formula reads from a value: a number, one for `true`, zero for `false` and `null`, and what a
text spells. -/
def toFloat? : Value → Option Float
  | .number n => some n.toFloat
  | .bool b => some (Binary64.ofInt (if b then 1 else 0))
  | .null => some (Binary64.ofInt 0)
  | .string s => readFloat? (trimBlank s.toList)
  | .array _ => none
  | .object _ => none

/-- Two to the power of 53, the largest size of an integer such that all smaller ones are doubles. -/
def exactLimit : Nat := 9007199254740992

/-- An integer as a value, if its size is within the limit. -/
def ofExactInt? (n : Int) : Option Value :=
  if h : n.natAbs ≤ exactLimit then
    some (.number (.int n (by simp only [exactLimit] at h; omega)))
  else none

/-- The value of a double: an integer if it denotes one within the limit, else a number if it is finite. -/
def ofFloat? (x : Float) : Option Value :=
  ((Binary64.toInt? x).bind ofExactInt?).or ((Number.ofFloat? x).map .number)

/-- Whether two values name the same entry of a table.  Numbers are compared as doubles, all else has to be the same
value. -/
def keyMatches : Value → Value → Bool
  | .number m, .number n => m.toFloat == n.toFloat
  | key, probe => key.same probe

/-- More decimal places than these are not told apart. -/
def placesLimit : Nat := 15

/-- A number rounded to decimal places, a half away from zero.  Other values stay as they are, and so does a number
whose rounding is not finite. -/
def roundTo (places : UInt32) (v : Value) : Value :=
  match v with
  | .number n =>
    let scale := Binary64.ofInt (Nat.pow 10 (min places.toNat placesLimit))
    (ofFloat? (Binary64.roundHalfAway (n.toFloat * scale) / scale)).getD v
  | _ => v

end CellGraph.Value
