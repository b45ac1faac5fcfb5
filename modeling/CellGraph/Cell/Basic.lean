import CellGraph.NodeId
import CellGraph.Formula.Compile
import CellGraph.Program

/-!
# Cells

A cell has a rule, either a formula or a table, and may have a fallback and a number of decimal places.  Its inputs
are ids in the order of connection: the formula reads the first one as `$1`, the second one as `$2` and so on, and a
table is looked up under the first one.  A cell also keeps the program of its last compilation and whether that is
still up to date.  Every change of what a program depends on makes the cell stale; the old program stays until the
next compilation.
-/

namespace CellGraph

inductive Formula where
  | number (x : Float)
  | expression (text : String)
deriving DecidableEq

/-- Whether two formulas have equal numbers or the same text. -/
def Formula.same : Formula → Formula → Bool
  | .number x, .number y => x == y
  | .expression s, .expression t => s == t
  | _, _ => false

/-- How a cell comes to its value.  A cell with a table without entries has nothing to go by. -/
inductive Rule where
  | formula (f : Formula)
  | lookup (table : Table)

namespace Rule

def formula? : Rule → Option Formula
  | .formula f => some f
  | .lookup _ => none

/-- The table; a formula has none. -/
def table : Rule → Table
  | .formula _ => .empty
  | .lookup t => t

/-- Whether two rules are the same formula or have the same table. -/
def same : Rule → Rule → Bool
  | .formula f, .formula g => f.same g
  | .lookup s, .lookup t => s.same t
  | _, _ => false

end Rule

/-- Whether the program of a cell is up to date. -/
inductive CellState where
  | stale
  | clean
  /-- The last compilation failed, and nothing changed since. -/
  | failed (e : Formula.CompileError)
deriving DecidableEq

structure Cell where
  id : NodeId
  name : String
  inputs : List NodeId
  rule : Rule
  /-- Takes the place of a value that is not there. -/
  fallback : Option Value
  precision : Option UInt32
  state : CellState
  program : Program

namespace Cell

def bare (id : NodeId) (name : String) : Cell := ⟨id, name, [], .lookup .empty, none, none, .stale, .missing⟩

def invalidate (c : Cell) : Cell := { c with state := .stale }

def formula? (c : Cell) : Option Formula := c.rule.formula?

def table (c : Cell) : Table := c.rule.table

/-! ### Setting the configuration -/

/-- Another name.  The program does not depend on it. -/
def setName (c : Cell) (name : String) : Cell := { c with name }

/-- A formula in place of a formula or a table. -/
def setFormula (c : Cell) (f : Formula) : Cell := { c with rule := .formula f }.invalidate

/-- No formula.  A table stays. -/
def clearFormula (c : Cell) : Cell := { c with rule := .lookup c.table }.invalidate

/-- A table entry, in place of a formula.  A `null` key stands for no key and changes nothing. -/
def setEntry (c : Cell) (key v : Value) : Cell :=
  match key with
  | .null => c
  | key => { c with rule := .lookup (c.table.insert key v) }.invalidate

/-- No table entry under a key, and no formula. -/
def eraseEntry (c : Cell) (key : Value) : Cell := { c with rule := .lookup (c.table.erase key) }.invalidate

def setFallback (c : Cell) (v : Option Value) : Cell := { c with fallback := v }.invalidate

def setPrecision (c : Cell) (places : Option UInt32) : Cell := { c with precision := places }.invalidate

/-! ### Changing the inputs -/

def addInput (c : Cell) (id : NodeId) : Cell := { c with inputs := c.inputs ++ [id] }.invalidate

/-- Without the first input of an id. -/
def removeInput (c : Cell) (id : NodeId) : Cell :=
  if id ∈ c.inputs then { c with inputs := c.inputs.erase id }.invalidate else c

def clearInputs (c : Cell) : Cell :=
  match c.inputs with
  | [] => c
  | _ => { c with inputs := [] }.invalidate

def setInputs (c : Cell) (inputs : List NodeId) : Cell := { c with inputs }.invalidate

/-! ### Comparing -/

/-- Whether two fallbacks are both missing or the same value. -/
def sameFallback : Option Value → Option Value → Bool
  | none, none => true
  | some v, some w => v.same w
  | _, _ => false

/-- Whether two cells have the same id, name, rule, fallback and precision. -/
def sameConfig (c d : Cell) : Bool :=
  c.id == d.id && c.name == d.name && c.rule.same d.rule && sameFallback c.fallback d.fallback &&
    c.precision == d.precision

end Cell

end CellGraph
