import CellGraph.Formula.Code
import CellGraph.Table

/-!
# Programs

A program is what a cell is compiled to.  It gives a value, or no value, from the values of the inputs.
-/

namespace CellGraph

inductive Program where
  /-- There is never a value. -/
  | missing
  | constant (v : Value)
  /-- The value is the result of the code of a formula. -/
  | code (instrs : List Formula.Instr)
  /-- The value is looked up under the value of the first input. -/
  | lookup (table : Table)
deriving Inhabited

/-- Runs a program on the values of the inputs. -/
def Program.run (args : List (Option Value)) : Program → Except Formula.EvalError (Option Value)
  | .missing => .ok none
  | .constant v => .ok (some v)
  | .code instrs =>
    match Formula.execute instrs args with
    | .error e => .error e
    | .ok x =>
      match Value.ofFloat? x with
      | some v => .ok (some v)
      | none => .error .nonFinite
  | .lookup table =>
    match args with
    | some probe :: _ => .ok (table.get? probe)
    | _ => .ok none

end CellGraph
