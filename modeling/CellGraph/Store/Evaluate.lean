import CellGraph.Cell.Evaluate
import CellGraph.Store.Order

/-!
# Evaluating a store

The members that matter for a root are evaluated in an order in which each comes after all that feed it, so that a
cell finds the outcomes of its inputs in the ledger.
-/

namespace CellGraph.Store

/-- The members that matter for a root, in the order of their evaluation. -/
def schedule (s : Store) (root : NodeId) : List NodeId :=
  let contributing := s.contributing root
  s.sort.filter fun id => contributing.contains id

/-- Evaluates the cell under an id and records its outcome.  The cell keeps its program. -/
def evaluateNext (l : Ledger) (s : Store) (id : NodeId) : Ledger × Store :=
  match s.cell? id with
  | some c =>
    let (outcome, c) := c.evaluate l
    (l.record outcome, s.modify id fun _ => c)
  | none => (l.record ⟨some (.compile .notInitialized), none⟩, s)

/-- Evaluates the members that matter for a root.  Nothing of an earlier evaluation is used but programs that are up
to date. -/
def evaluate (s : Store) (root : NodeId) : Ledger × Store :=
  let order := s.schedule root
  order.foldl (fun (l, s) id => evaluateNext l s id) (.ofOrder order, s)

end CellGraph.Store
