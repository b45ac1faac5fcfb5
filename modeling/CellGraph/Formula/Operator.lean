import CellGraph.Numeric.Binary64

/-!
# Operators

The six binary operators of formulas, how tightly they bind, and what they do to doubles.
-/

namespace CellGraph.Formula

inductive Operator where
  | add
  | sub
  | mul
  | div
  | rem
  | pow
deriving DecidableEq, Repr

namespace Operator

/-- The name of an operator in the texts of tokens and instructions. -/
def name : Operator → String
  | .add => "Add"
  | .sub => "Sub"
  | .mul => "Mul"
  | .div => "Div"
  | .rem => "Rem"
  | .pow => "Pow"

def precedence : Operator → Nat
  | .add | .sub => 1
  | .mul | .div | .rem => 2
  | .pow => 3

/-- Whether an operator groups to the right with itself.  Only the power does. -/
def isRightAssoc (o : Operator) : Bool := o == .pow

/-- Whether an operator to the left of another one takes the operand between them. -/
def bindsBefore (left right : Operator) : Bool :=
  decide (right.precedence < left.precedence) || (left.precedence == right.precedence && !right.isRightAssoc)

/-- The result of an operator.  The remainder has the sign of the dividend. -/
def apply : Operator → Float → Float → Float
  | .add, l, r => l + r
  | .sub, l, r => l - r
  | .mul, l, r => l * r
  | .div, l, r => l / r
  | .rem, l, r => Binary64.remainder l r
  | .pow, l, r => Float.pow l r

end Operator

end CellGraph.Formula
