import CellGraph.Graph.Basic
import CellGraph.Store.Evaluate

/-!
# Evaluating a graph

The value of a graph is the value of its root.  `Graph.diagnostics` compiles every cell and reports those that have no
program.
-/

namespace CellGraph

/-- The category of a diagnostic. -/
inductive DiagnosticKind where
  | notInitialized
  | unresolvedReference
  | build
deriving DecidableEq

def Formula.CompileError.kind : Formula.CompileError → DiagnosticKind
  | .notInitialized => .notInitialized
  | .unresolvedReference _ => .unresolvedReference
  | .build _ => .build

/-- A cell without a program. -/
structure Diagnostic where
  id : NodeId
  name : String
  error : Formula.CompileError
deriving DecidableEq

namespace Diagnostic

def kind (d : Diagnostic) : DiagnosticKind := d.error.kind

def message (d : Diagnostic) : String := d.error.message

end Diagnostic

namespace Graph

/-- Evaluates all cells that lead to the root. -/
def evaluate (g : Graph) : Ledger × Graph :=
  let (ledger, store) := g.store.evaluate g.root
  (ledger, { g with store })

/-- The value of the root. -/
def value? (g : Graph) : Option Value := g.evaluate.1.result?

/-- Compiles every cell and reports those without a program, in the order of insertion. -/
def diagnostics (g : Graph) : List Diagnostic × Graph :=
  let g := { g with store := g.store.map Cell.compile }
  (g.store.cells.entries.filterMap fun e => e.2.failure?.map fun error => ⟨e.2.id, e.2.name, error⟩, g)

end Graph

end CellGraph
