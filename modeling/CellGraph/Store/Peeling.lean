import CellGraph.NodeId
import Std.Data.HashMap

/-!
# Peeling a graph

Every node of a graph waits for a number of arcs.  A node that waits for none is free.  Peeling takes a free node, the
one that became free last, and lets go of the arcs that leave it, which may free other nodes, until no free node is
left.  The nodes that are taken are listed in that order.  A node is taken at most once: it is freed only by the arc
that brings what it waits for down to zero.
-/

namespace CellGraph

/-- A graph that is peeled in part. -/
structure Peeling where
  /-- For how many arcs each node still waits. -/
  waiting : Std.HashMap NodeId Nat
  /-- The free nodes, the one that became free last first. -/
  free : List NodeId
  /-- The nodes that are taken, the last one first. -/
  taken : List NodeId

namespace Peeling

/-- Nothing is taken yet.  Of the nodes that wait for nothing, the last one counts as the one that became free last. -/
def start (members : List NodeId) (waiting : Std.HashMap NodeId Nat) : Peeling :=
  ⟨waiting, (members.filter fun id => waiting[id]? == some 0).reverse, []⟩

/-- Lets go of an arc that leads to a node. -/
def release (p : Peeling) (id : NodeId) : Peeling :=
  match p.waiting[id]? with
  | some 1 => { p with waiting := p.waiting.insert id 0, free := id :: p.free }
  | some (n + 2) => { p with waiting := p.waiting.insert id (n + 1) }
  | _ => p

/-- Takes a node and lets go of the arcs that leave it. -/
def take (arcs : NodeId → List NodeId) (p : Peeling) (id : NodeId) (free : List NodeId) : Peeling :=
  (arcs id).foldl release ⟨p.waiting, free, id :: p.taken⟩

/-- Takes up to a number of nodes. -/
def run (arcs : NodeId → List NodeId) : Nat → Peeling → Peeling
  | 0, p => p
  | n + 1, p =>
    match p.free with
    | [] => p
    | id :: free => run arcs n (p.take arcs id free)

end Peeling

/-- The nodes that are taken when a graph is peeled as far as possible, in order. -/
def peel (members : List NodeId) (waiting : Std.HashMap NodeId Nat) (arcs : NodeId → List NodeId) : List NodeId :=
  ((Peeling.start members waiting).run arcs members.length).taken.reverse

end CellGraph
