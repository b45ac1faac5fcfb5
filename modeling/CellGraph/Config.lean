/-!
# Options of a graph

How the root of a new graph is named, what it computes, and how a graph is written.
-/

namespace CellGraph

structure Config where
  rootName : String
  rootFormula : String
  /-- Whether a graph is written with one item a line. -/
  prettyDump : Bool
deriving DecidableEq, Repr

/-- The root is called `root` and passes its one input through; a graph is written without blanks. -/
def Config.standard : Config := ⟨"root", "$1", false⟩

end CellGraph
