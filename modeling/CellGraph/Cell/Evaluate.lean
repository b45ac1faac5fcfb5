import CellGraph.Cell.Basic
import CellGraph.Ledger

/-!
# Evaluating a cell

A cell is compiled if it is stale and then runs its program on the values that a ledger has for its inputs.  A number
is rounded if the cell has a precision, and only a value that is not there is replaced by the fallback.
-/

namespace CellGraph

/-- The program of a rule for a number of inputs.  A constant that is not finite has a program without a value. -/
def Rule.compile (arity : Nat) : Rule → Except Formula.CompileError Program
  | .formula (.number x) =>
    match Value.ofFloat? x with
    | some v => .ok (.constant v)
    | none => .ok .missing
  | .formula (.expression text) =>
    match Formula.compile text arity with
    | .ok instrs => .ok (.code instrs)
    | .error e => .error e
  | .lookup table => if table.isEmpty then .error .notInitialized else .ok (.lookup table)

namespace Cell

/-- Why the last compilation failed, if nothing changed since. -/
def failure? (c : Cell) : Option Formula.CompileError :=
  match c.state with
  | .failed e => some e
  | _ => none

/-- Brings the program up to date.  A compilation that fails leaves a program without a value. -/
def compile (c : Cell) : Cell :=
  match c.state with
  | .stale =>
    match c.rule.compile c.inputs.length with
    | .ok program => { c with program, state := .clean }
    | .error e => { c with program := .missing, state := .failed e }
  | _ => c

/-- The value of a cell from what its program gave: rounded if it is there, and the fallback if not. -/
def settle (c : Cell) (v : Option Value) : Option Value :=
  let rounded :=
    match v, c.precision with
    | some v, some places => some (v.roundTo places)
    | v, _ => v
  rounded.or c.fallback

/-- The outcome of a cell whose inputs have their values in a ledger, and the cell with its program up to date. -/
def evaluate (c : Cell) (l : Ledger) : Outcome × Cell :=
  let c := c.compile
  match c.program.run (c.inputs.map l.value?) with
  | .ok v => (⟨c.failure?.map .compile, c.settle v⟩, c)
  | .error e => (⟨some (.eval e), c.settle none⟩, c)

end Cell

end CellGraph
