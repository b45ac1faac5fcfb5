import CellGraph.Cell.Basic
import CellGraph.Store.IdMap

/-!
# Stores

A store holds cells under ids, in the order of insertion, and for each of them the ids it feeds (its targets) in the
order of connection.  A store has no policy: an edge can be there twice, close a cycle or lead to an id that is not a
member.  An edge is recorded on both sides, in the targets of its source and in the inputs of its end.
-/

namespace CellGraph

/-- Cells in the order of insertion. -/
structure Store where
  cells : IdMap Cell
  /-- The ids that each cell feeds. -/
  targetLists : IdMap (List NodeId)
  /-- A number above every id that was handed out or inserted. -/
  nextId : Nat
  ids_targetLists : targetLists.ids = cells.ids

structure Node where
  key : NodeId
  cell : Cell
  targets : List NodeId

namespace Store

def empty : Store := ⟨.empty, .empty, 0, rfl⟩

def size (s : Store) : Nat := s.cells.size

def ids (s : Store) : List NodeId := s.cells.ids

def cell? (s : Store) (id : NodeId) : Option Cell := s.cells.get? id

def contains (s : Store) (id : NodeId) : Bool := s.cells.contains id

/-- The ids that an id feeds. -/
def targets (s : Store) (id : NodeId) : List NodeId := (s.targetLists.get? id).getD []

/-- The ids that feed an id. -/
def inputs (s : Store) (id : NodeId) : List NodeId :=
  match s.cell? id with
  | some c => c.inputs
  | none => []

def hasEdge (s : Store) (source target : NodeId) : Bool := (s.targets source).contains target

/-- The cells with what they feed, in the order of insertion. -/
def nodes (s : Store) : List Node := s.cells.entries.map fun e => ⟨e.1, e.2, s.targets e.1⟩

def modify (s : Store) (id : NodeId) (f : Cell → Cell) : Store where
  cells := s.cells.modify id f
  targetLists := s.targetLists
  nextId := s.nextId
  ids_targetLists := by rw [IdMap.ids_modify, s.ids_targetLists]

def modifyTargets (s : Store) (id : NodeId) (f : List NodeId → List NodeId) : Store where
  cells := s.cells
  targetLists := s.targetLists.modify id f
  nextId := s.nextId
  ids_targetLists := by rw [IdMap.ids_modify, s.ids_targetLists]

def map (s : Store) (f : Cell → Cell) : Store where
  cells := s.cells.map f
  targetLists := s.targetLists
  nextId := s.nextId
  ids_targetLists := by rw [IdMap.ids_map, s.ids_targetLists]

/-! ### Members -/

/-- The id for a new cell: the next one while there is one of 32 bits, then the lowest that no cell has. -/
def freshId? (s : Store) : Option NodeId :=
  if s.nextId < UInt32.size then some ⟨.ofNat s.nextId⟩
  else
    ((List.range (min (s.size + 1) UInt32.size)).find? fun n => !s.contains ⟨.ofNat n⟩).map fun n => ⟨.ofNat n⟩

/-- Puts a cell under its own id, without inputs and targets.  A new id comes last; an id that is there keeps its
place. -/
def insert (s : Store) (c : Cell) : Store where
  cells := s.cells.insert c.id c.clearInputs
  targetLists := s.targetLists.insert c.id []
  nextId := max s.nextId (c.id.val.toNat + 1)
  ids_targetLists := by rw [IdMap.ids_insert, IdMap.ids_insert, s.ids_targetLists]

/-- Adds a new cell without edges.  Nothing is added once every id has a cell. -/
def create (s : Store) (name : String) : NodeId × Store :=
  match s.freshId? with
  | some id => (id, s.insert (.bare id name))
  | none => (⟨0⟩, s)

/-- Takes a cell out and leaves what other cells have recorded of it. -/
def drop (s : Store) (id : NodeId) : Store where
  cells := s.cells.erase id
  targetLists := s.targetLists.erase id
  nextId := s.nextId
  ids_targetLists := by rw [IdMap.ids_erase, IdMap.ids_erase, s.ids_targetLists]

/-- Takes a cell out, with every edge that is recorded for it. -/
def remove? (s : Store) (id : NodeId) : Option (Cell × Store) :=
  match s.cell? id with
  | none => none
  | some c =>
    -- one input goes for every edge, so parallel edges leave nothing behind
    let consumed := (s.targets id).foldl (fun s target => s.modify target fun c => c.removeInput id) (s.drop id)
    let detached := c.inputs.foldl (fun s source => s.modifyTargets source fun ts => ts.filter (· != id)) consumed
    some (c.clearInputs, detached)

/-! ### Edges -/

/-- Records an edge on both sides. -/
def link (s : Store) (source target : NodeId) : Store :=
  (s.modifyTargets source fun ts => ts ++ [target]).modify target fun c => c.addInput source

/-- Removes the first edge between two ids from both sides. -/
def unlink (s : Store) (source target : NodeId) : Store :=
  if s.hasEdge source target then
    (s.modifyTargets source fun ts => ts.erase target).modify target fun c => c.removeInput source
  else s

/-! ### The number of cells -/

private theorem size_modify (s : Store) (id : NodeId) (f : Cell → Cell) : (s.modify id f).size = s.size := by
  simp [modify, size, ← IdMap.length_ids]

private theorem size_foldl {α : Type} {g : Store → α → Store} (hg : ∀ s a, (g s a).size = s.size) (as : List α)
    (s : Store) : (as.foldl g s).size = s.size := by
  induction as generalizing s with
  | nil => rfl
  | cons a as ih => rw [List.foldl_cons, ih, hg]

/-- A store without one of its cells is smaller by one. -/
theorem size_remove? {s t : Store} {id : NodeId} {c : Cell} (h : s.remove? id = some (c, t)) :
    t.size + 1 = s.size := by
  unfold remove? at h
  split at h
  · simp at h
  · rename_i c hc
    obtain ⟨-, rfl⟩ := Prod.mk.inj (Option.some.inj h)
    have htargets (s : Store) (source : NodeId) :
        (s.modifyTargets source fun ts => ts.filter (· != id)).size = s.size := rfl
    rw [size_foldl htargets, size_foldl fun s target => size_modify s target _]
    exact IdMap.size_erase (IdMap.mem_ids_of_get? hc)

end Store

end CellGraph
