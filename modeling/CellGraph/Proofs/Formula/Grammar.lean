import CellGraph.Formula.Compile

/-!
# The grammar of formulas

A phrase is derived by the rules

* `expr := term (('+' | '-') term)*`
* `term := power (('*' | '/' | '%') power)*`
* `power := primary '**' power | unary`
* `unary := ('+' | '-') unary | primary`
* `primary := number | argument | '(' expr ')'`

with the tree that the rules give it: sums and products group to the left, powers to the right (`Derives`).  The code of
a tree is its postorder.
-/

namespace CellGraph.Formula

/-- The tree of a phrase.  Parentheses leave nothing behind. -/
inductive ParseTree where
  | number (x : Float)
  | argument (index : Nat)
  | sign (negative : Bool) (t : ParseTree)
  | binary (o : Operator) (l r : ParseTree)

/-- The code of a tree: operands before their operator.  A plus sign in front of an operand has no code. -/
def ParseTree.postorder : ParseTree → List Instr
  | .number x => [.push x]
  | .argument i => [.argument i]
  | .sign true t => t.postorder ++ [.negate]
  | .sign false t => t.postorder
  | .binary o l r => l.postorder ++ r.postorder ++ [.binary o]

/-- The kinds of phrases, from the loosest to the tightest. -/
inductive Level where
  | expr
  | term
  | power
  | unary
  | primary

/-- The operator that is written like a sign. -/
def Operator.ofSign (negative : Bool) : Operator := if negative then .sub else .add

/-- The phrases of each kind, with their trees. -/
inductive Derives : Level → List Token → ParseTree → Prop
  | term {ts : List Token} {t : ParseTree} : Derives .term ts t → Derives .expr ts t
  | sum {o : Operator} {ls rs : List Token} {l r : ParseTree} : o ∈ [Operator.add, .sub] → Derives .expr ls l →
      Derives .term rs r → Derives .expr (ls ++ .operator o :: rs) (.binary o l r)
  | power {ts : List Token} {t : ParseTree} : Derives .power ts t → Derives .term ts t
  | product {o : Operator} {ls rs : List Token} {l r : ParseTree} : o ∈ [Operator.mul, .div, .rem] →
      Derives .term ls l → Derives .power rs r → Derives .term (ls ++ .operator o :: rs) (.binary o l r)
  | unary {ts : List Token} {t : ParseTree} : Derives .unary ts t → Derives .power ts t
  | pow {ls rs : List Token} {l r : ParseTree} : Derives .primary ls l → Derives .power rs r →
      Derives .power (ls ++ .operator .pow :: rs) (.binary .pow l r)
  | primary {ts : List Token} {t : ParseTree} : Derives .primary ts t → Derives .unary ts t
  | sign (negative : Bool) {ts : List Token} {t : ParseTree} : Derives .unary ts t →
      Derives .unary (.operator (.ofSign negative) :: ts) (.sign negative t)
  | number (x : Float) : Derives .primary [.number x] (.number x)
  | argument (index : Nat) : Derives .primary [.argument index] (.argument index)
  | paren {ts : List Token} {t : ParseTree} : Derives .expr ts t →
      Derives .primary (.openParen :: (ts ++ [.closeParen])) t

end CellGraph.Formula
