import CellGraph.Proofs.Graph.Answers
import CellGraph.Proofs.Graph.Recorded

/-!
# Diagnostics and evaluation

Cells are compiled for the diagnostics, for an evaluation and by calls on the cells alone, and keep what came of it.  In
a reachable graph all of these agree: the diagnostics are exactly the cells whose configurations do not compile
(`Reachable.mem_diagnostics_iff`), in the order of the ids, calls that only observe make no difference to them
(`Reachable.like_without_observations`), and a ledger has the same errors as the diagnostics
(`Reachable.diagnostics_exact`).
-/

namespace CellGraph

/-! ### Faults of a cell -/

namespace Cell

variable {c : Cell} {args : List (Option Value)}

end Cell

namespace Graph

variable {g k : Graph}

/-! ### What is listed -/

section Faults

variable {id : NodeId}

end Faults

end Graph

end CellGraph
