import CellGraph.Fault
import CellGraph.NodeId

/-!
# Ledgers

A ledger holds the outcomes of one evaluation of a graph: the ids of the cells in the order of evaluation and, for
those that have had their turn, what came of them.  An id is looked up at its first place in the order.
-/

namespace CellGraph

/-- What came of a cell.  Both parts can be there: a fallback takes the place of a value that a fault kept away. -/
structure Outcome where
  fault : Option Fault
  value : Option Value

/-- The outcomes of cells in the order of their evaluation. -/
structure Ledger where
  order : List NodeId
  /-- The outcomes of the first cells of the order. -/
  outcomes : List Outcome

namespace Ledger

def ofOrder (order : List NodeId) : Ledger := ⟨order, []⟩

/-- The outcome of the next cell of the order. -/
def record (l : Ledger) (o : Outcome) : Ledger := { l with outcomes := l.outcomes ++ [o] }

/-- How many cells have had their turn. -/
def size (l : Ledger) : Nat := l.outcomes.length

def isEmpty (l : Ledger) : Bool := l.outcomes.isEmpty

/-- The outcome of a cell, if it has had its turn. -/
def outcome? (l : Ledger) (id : NodeId) : Option Outcome :=
  (l.order.findIdx? (· == id)).bind fun i => l.outcomes[i]?

/-- Whether a cell has had its turn. -/
def contains (l : Ledger) (id : NodeId) : Bool := (l.outcome? id).isSome

def value? (l : Ledger) (id : NodeId) : Option Value := (l.outcome? id).bind (·.value)

def fault? (l : Ledger) (id : NodeId) : Option Fault := (l.outcome? id).bind (·.fault)

/-- The value of the cell that had its turn last. -/
def result? (l : Ledger) : Option Value := l.outcomes.getLast?.bind (·.value)

end Ledger

end CellGraph
