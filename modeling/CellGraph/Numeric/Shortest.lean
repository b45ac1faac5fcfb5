import CellGraph.Numeric.Decimal
import CellGraph.Numeric.Digits

/-!
# The shortest decimal of a double

Many decimal fractions have the same double as their nearest one.  `Decimal.shortest` finds the one with the fewest
digits, and of those the nearest to the double.  For each number of digits it looks at the two neighbours of the
double on that decimal grid: if any point of the grid has this double as its nearest, one of the two has.  Two
neighbours can be equally near; the caller says which of them is taken.
-/

namespace CellGraph

/-- Which of two equally near neighbours is taken. -/
inductive Tie where
  /-- The one with an even coefficient. -/
  | toEven
  /-- The larger one. -/
  | up
deriving DecidableEq, Repr

namespace Decimal

open Float.Model (UnpackedFloat)

/-- The numerator of `m · 2 ^ e`. -/
def numerator (m : Nat) (e : Int) : Nat := m * Nat.pow 2 e.toNat

/-- The denominator of `m · 2 ^ e`. -/
def denominator (e : Int) : Nat := Nat.pow 2 (-e).toNat

/-- The exponent `k` with `10 ^ k ≤ num / den < 10 ^ (k + 1)`. -/
def magnitude (num den : Nat) : Int :=
  if den ≤ num then (digitCount (num / den) : Int) - 1 else -(digitCount ((den - 1) / num) : Int)

/-- Whether the nearest double to the decimal fraction is `m · 2 ^ e`. -/
def readsAs (m : Nat) (e : Int) (d : Decimal) : Bool :=
  match d.parts with
  | .finite _ m' e' _ => m' == m && e' == e
  | _ => false

/-- The neighbour of `num / den` on the grid of the multiples of `10 ^ k` that reads as `m · 2 ^ e`, the nearer one
if both do. -/
def onGrid (tie : Tie) (m : Nat) (e : Int) (k : Int) : Option Decimal :=
  let num := numerator m e * Nat.pow 10 (-k).toNat
  let den := denominator e * Nat.pow 10 k.toNat
  let below : Decimal := ⟨num / den, k⟩
  let above : Decimal := ⟨num / den + 1, k⟩
  match readsAs m e below, readsAs m e above with
  | false, false => none
  | true, false => some below
  | false, true => some above
  | true, true =>
    -- the remainder says on which side of the middle the number lies
    match compare (2 * (num % den)) den with
    | .lt => some below
    | .gt => some above
    | .eq =>
      match tie with
      | .up => some above
      | .toEven => some (if num / den % 2 = 0 then below else above)

/-- The finite expansion of `m · 2 ^ e`, whose value is exactly that number. -/
def expansion (m : Nat) (e : Int) : Decimal := ⟨numerator m e * Nat.pow 5 (-e).toNat, min e 0⟩

/-- The hit on the first grid that has one, starting from `10 ^ k` and going through `n` grids, each ten times finer
than the one before.  After the last grid comes the finite expansion. -/
def firstOnGrid (tie : Tie) (m : Nat) (e : Int) : Nat → Int → Decimal
  | 0, _ => expansion m e
  | n + 1, k =>
    match onGrid tie m e k with
    | some d => d
    | none => firstOnGrid tie m e n (k - 1)

/-- The decimal fraction with the fewest digits whose nearest double is `m · 2 ^ e`, and of those the nearest one.
The first grid is coarser than the number, so a coefficient never ends in a zero, and seventeen digits always
suffice. -/
def shortest (tie : Tie) (m : Nat) (e : Int) : Decimal :=
  firstOnGrid tie m e 18 (magnitude (numerator m e) (denominator e) + 1)

end Decimal

end CellGraph
