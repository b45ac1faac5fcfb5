/-!
# Ids of cells

A cell is known by a number of 32 bits.
-/

namespace CellGraph

structure NodeId where
  val : UInt32
deriving DecidableEq, Hashable, Repr, Inhabited

namespace NodeId

def text (id : NodeId) : String := toString id.val.toNat

end NodeId

end CellGraph
