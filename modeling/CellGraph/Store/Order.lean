import CellGraph.Store.Basic
import CellGraph.Store.Peeling

/-!
# Orders of a store

`Store.sort` lists the members such that each comes after all that feed it, leaving out those that lie on a cycle or
after one.  `Store.contributing` lists the members whose values can matter for a root: a member other than the root
that feeds nothing does not matter, and neither does one that feeds only such members.  Both peel the store, the first
along its edges and the second against them.
-/

namespace CellGraph.Store

def targetsTable (s : Store) : Std.HashMap NodeId (List NodeId) :=
  s.targetLists.entries.foldl (fun table e => table.insert e.1 e.2) ∅

/-- The members that feed each id, once for every edge. -/
def sourcesTable (s : Store) : Std.HashMap NodeId (List NodeId) :=
  s.targetLists.entries.foldl
    (fun table e => e.2.foldl (fun table t => table.insert t (e.1 :: table.getD t [])) table) ∅

/-- One more arc for which a member waits. -/
def addWait (waiting : Std.HashMap NodeId Nat) (id : NodeId) : Std.HashMap NodeId Nat :=
  match waiting[id]? with
  | some n => waiting.insert id (n + 1)
  | none => waiting

/-- How many edges lead to each member, with an extra edge. -/
def indegrees (s : Store) (extra : Option (NodeId × NodeId)) : Std.HashMap NodeId Nat :=
  let none : Std.HashMap NodeId Nat := s.ids.foldl (fun waiting id => waiting.insert id 0) ∅
  let waiting := s.targetLists.entries.foldl (fun waiting e => e.2.foldl addWait waiting) none
  match extra with
  | some (_, target) => addWait waiting target
  | _ => waiting

/-- The members in an order in which each comes after all that feed it, as if an extra edge were there.  Members on a
cycle and those after one are left out.  Among the members that could come next, the one that became ready last does. -/
def sortWith (s : Store) (extra : Option (NodeId × NodeId)) : List NodeId :=
  let table := s.targetsTable
  peel s.ids (s.indegrees extra) fun id =>
    let targets := table.getD id []
    match extra with
    -- the extra edge comes after those that are there, as if it had just been added
    | some (source, target) => if source == id then targets ++ [target] else targets
    | none => targets

/-- The members in an order in which each comes after all that feed it. -/
def sort (s : Store) : List NodeId := s.sortWith none

/-- Whether an order has all members, so that no edge lies on a cycle. -/
def isComplete (s : Store) (order : List NodeId) : Bool := order.length == s.size

/-- How many edges leave each member.  The root waits for one more, which nobody lets go of. -/
def outdegrees (s : Store) (root : NodeId) : Std.HashMap NodeId Nat :=
  s.targetLists.entries.foldl
    (fun waiting e => waiting.insert e.1 (e.2.length + if e.1 == root then 1 else 0)) ∅

/-- The members that do not matter for a root, each after all that it feeds. -/
def idle (s : Store) (root : NodeId) : List NodeId :=
  let table := s.sourcesTable
  peel s.ids (s.outdegrees root) fun id => table.getD id []

/-- The members that matter for a root, in the order of insertion. -/
def contributing (s : Store) (root : NodeId) : List NodeId :=
  let idle := s.idle root
  s.ids.filter fun id => !idle.contains id

end CellGraph.Store
