import CellGraph.Document.Restore
import CellGraph.Graph.Trace
import CellGraph.Proofs.Store.Order
import CellGraph.Proofs.Store.Contributing
import CellGraph.Proofs.Store.Views
import CellGraph.Proofs.Cell.Reachable
import CellGraph.Proofs.Graph.Reachable
import CellGraph.Proofs.Store.WellFormed
import CellGraph.Proofs.Graph.Calls
import CellGraph.Proofs.Graph.WellFormed
import CellGraph.Proofs.Cell.Outcome
import CellGraph.Proofs.Graph.Meaning
import CellGraph.Proofs.Formula.Grammar
import CellGraph.Proofs.Formula.Yard
import CellGraph.Proofs.Formula.Unambiguous
import CellGraph.Proofs.Formula.Compile
import CellGraph.Proofs.Formula.Execute
import CellGraph.Proofs.Graph.Connect
import CellGraph.Proofs.Cell.Configuration
import CellGraph.Proofs.Document.TextRoundTrip
import CellGraph.Proofs.Document.Restore
import CellGraph.Proofs.Graph.Programs
import CellGraph.Proofs.Graph.Clean
import CellGraph.Proofs.Graph.ConnectionOrder
import CellGraph.Proofs.Graph.EdgeLog
import CellGraph.Proofs.Store.Restriction
import CellGraph.Proofs.Document.Repeats
import CellGraph.Proofs.Json.Reading
import CellGraph.Proofs.Numeric.Nearest
import CellGraph.Proofs.Numeric.Arithmetic
import CellGraph.Proofs.Document.Reading
import CellGraph.Proofs.Graph.Cone
import CellGraph.Proofs.Graph.Guard
import CellGraph.Proofs.Graph.Session
import CellGraph.Proofs.Store.Sorting
import CellGraph.Proofs.Graph.Diagnostics
import CellGraph.Proofs.Numeric.Exact
import CellGraph.Proofs.Graph.PassThrough
import CellGraph.Proofs.Graph.Mirror
import CellGraph.Proofs.Store.Pruning
import CellGraph.Proofs.Graph.Removal
import CellGraph.Proofs.Graph.Admission
import CellGraph.Proofs.Formula.References
import CellGraph.Proofs.Json.Same
import CellGraph.Proofs.Graph.Adding
import CellGraph.Proofs.Table.History
import CellGraph.Proofs.Table.Numbers
import CellGraph.Proofs.Graph.Configuration
import CellGraph.Proofs.Graph.Explained
import CellGraph.Proofs.Graph.TraceShape
import CellGraph.Proofs.Graph.FormulaText
import CellGraph.Proofs.Graph.CompleteTrace
import CellGraph.Proofs.Formula.Result
import CellGraph.Proofs.Document.Stream
import CellGraph.Proofs.Cell.Places
import CellGraph.Proofs.Formula.Waiting
import CellGraph.Proofs.Store.Balance
