import CellGraph.Cell.Basic
import CellGraph.Graph.Basic

/-!
# Documents

A document describes a graph: every id with the ids it feeds, in the order of insertion and with the root first, and a
record of the configuration of every cell.  `Record.ofCell` and `Record.toCell` go between cells and records, and
`Graph.document` describes a graph.
-/

namespace CellGraph

structure Record where
  id : NodeId
  name : String
  formula : Option Formula
  inputs : List NodeId
  table : Table
  fallback : Option Value
  precision : Option UInt32

namespace Record

def ofCell (c : Cell) : Record := ⟨c.id, c.name, c.formula?, c.inputs, c.table, c.fallback, c.precision⟩

/-- A cell with the configuration of a record and without inputs.  A formula goes before a table. -/
def toCell (r : Record) : Cell :=
  let c := Cell.bare r.id r.name
  let c :=
    match r.formula with
    | some f => c.setFormula f
    | none => r.table.entries.foldl (fun (c : Cell) (e : Value × Value) => c.setEntry e.1 e.2) c
  let c :=
    match r.fallback with
    | some v => c.setFallback (some v)
    | none => c
  c.setPrecision r.precision

end Record

structure Document where
  /-- Every id in the order of insertion, with the ids it feeds in the order of connection.  The root comes first. -/
  edges : List (NodeId × List NodeId)
  nodes : List Record

/-- The description of a graph.  A record comes after those of the inputs. -/
def Graph.document (g : Graph) : Document :=
  ⟨g.ids.map fun id => (id, g.targets id), (g.order.filterMap g.cell?).map .ofCell⟩

end CellGraph
