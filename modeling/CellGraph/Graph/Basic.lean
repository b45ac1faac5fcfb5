import CellGraph.Cell.Evaluate
import CellGraph.Config
import CellGraph.Store.Order

/-!
# Graphs

A graph is a store with one cell as its root.  `Graph.connect` accepts an edge only if it keeps the graph in shape: the
root feeds nothing and has at most one input, both ends are members, no edge is there twice, and no cycle is closed.
`Graph.clean` removes the cells that do not lead to the root and compiles the others.
-/

namespace CellGraph

inductive GraphError where
  /-- Another cell is known by the id. -/
  | collision (id : NodeId)
  /-- The root stays. -/
  | rootRemoval
  /-- No cell is known by the id. -/
  | unknown (id : NodeId)
deriving DecidableEq

def GraphError.message : GraphError → String
  | .collision id => "Node " ++ id.text ++ " collides with a different live node"
  | .rootRemoval => "The root node cannot be removed"
  | .unknown id => "Node " ++ id.text ++ " is not a member of this graph"

structure Graph where
  store : Store
  root : NodeId
  config : Config

namespace Graph

/-- A graph with nothing but its root. -/
def ofConfig (config : Config) : Graph :=
  let (root, store) := Store.empty.create config.rootName
  ⟨store.modify root fun c => c.setFormula (.expression config.rootFormula), root, config⟩

/-- A graph with nothing but its root and the standard options. -/
def initial : Graph := ofConfig .standard

/-! ### Views -/

def size (g : Graph) : Nat := g.store.size

def ids (g : Graph) : List NodeId := g.store.ids

def contains (g : Graph) (id : NodeId) : Bool := g.store.contains id

def cell? (g : Graph) (id : NodeId) : Option Cell := g.store.cell? id

/-- The ids that feed an id, in the order of connection. -/
def inputs (g : Graph) (id : NodeId) : List NodeId := g.store.inputs id

/-- The ids that an id feeds, in the order of connection. -/
def targets (g : Graph) (id : NodeId) : List NodeId := g.store.targets id

def isConnected (g : Graph) (source target : NodeId) : Bool := g.store.hasEdge source target

/-- The cells other than the root that feed nothing. -/
def orphans (g : Graph) : List NodeId := g.ids.filter fun id => id != g.root && (g.targets id).isEmpty

def leaves (g : Graph) : List NodeId := g.ids.filter fun id => (g.inputs id).isEmpty

/-- The cells in an order in which each comes after all that feed it. -/
def order (g : Graph) : List NodeId := g.store.sort

/-! ### Cells -/

def modify (g : Graph) (id : NodeId) (f : Cell → Cell) : Graph := { g with store := g.store.modify id f }

/-- Adds a new cell without edges. -/
def create (g : Graph) (name : String) : NodeId × Graph :=
  let (id, store) := g.store.create name
  (id, { g with store })

/-- Adds a cell under its own id, without edges.  A cell with the same configuration may be there already. -/
def add (g : Graph) (c : Cell) : Except GraphError Graph :=
  match g.cell? c.id with
  | some present => if present.sameConfig c then .ok g else .error (.collision c.id)
  | none => .ok { g with store := g.store.insert c }

/-- Takes a cell out with all its edges. -/
def remove (g : Graph) (id : NodeId) : Except GraphError (Cell × Graph) :=
  if id == g.root then .error .rootRemoval
  else
    match g.store.remove? id with
    | some (c, store) => .ok (c, { g with store })
    | none => .error (.unknown id)

/-! ### Edges -/

/-- Whether an edge can be added: the root feeds nothing and has one input at most, both ends are members, the edge is
new, and all cells have an order with it. -/
def canConnect (g : Graph) (source target : NodeId) : Bool :=
  source != g.root && g.contains source && g.contains target &&
    (target != g.root || (g.inputs g.root).isEmpty) && !g.isConnected source target &&
    g.store.isComplete (g.store.sortWith (some (source, target)))

/-- Adds an edge if it can be added. -/
def connect (g : Graph) (source target : NodeId) : Graph :=
  if g.canConnect source target then { g with store := g.store.link source target } else g

/-- Removes an edge if it is there. -/
def disconnect (g : Graph) (source target : NodeId) : Graph := { g with store := g.store.unlink source target }

/-! ### Cleaning -/

/-- Takes out the cells of a work list that feed nothing, and then those that feed nothing any more, the one that was
found last first. -/
def sweep (root : NodeId) (s : Store) (work removed : List NodeId) : List NodeId × Store :=
  match work with
  | [] => (removed.reverse, s)
  | id :: work =>
    if id == root || !(s.targets id).isEmpty then sweep root s work removed
    else
      match h : s.remove? id with
      | none => sweep root s work removed
      | some (_, t) =>
        have := Store.size_remove? h
        -- the targets are looked up without the cell, since it may have been the last one
        let found := (s.inputs id).filter fun source => source != root && (t.targets source).isEmpty
        sweep root t (found.reverse ++ work) (id :: removed)
termination_by (s.size, work.length)
decreasing_by
  · exact Prod.Lex.right _ (Nat.lt_succ_self _)
  · exact Prod.Lex.right _ (Nat.lt_succ_self _)
  · exact Prod.Lex.left _ _ (by omega)

/-- Removes the cells that do not lead to the root and compiles all others.  The ids that were removed are listed in
order. -/
def clean (g : Graph) : List NodeId × Graph :=
  let (removed, store) := sweep g.root g.store g.orphans.reverse []
  (removed, { g with store := store.map fun c => c.invalidate.compile })

end Graph

end CellGraph
