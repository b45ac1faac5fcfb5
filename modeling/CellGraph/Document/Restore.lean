import CellGraph.Document.Codec
import CellGraph.Json.Stream

/-!
# Dumping and restoring graphs

`Graph.dump` writes the document of a graph, and `Graph.dumpTo` writes it to a stream.  `Document.rebuild` makes a graph the
one that a document describes, with the options that it has: it is cleared, and then all cells are added, then the edges,
each of which has to be accepted, and last comes the order of the inputs, which the edges do not tell.  A document that
describes no graph is refused with the first fault found.  That leaves a part of the new graph, in whose place
`Graph.restoreInPlace` puts the one that was there before.
-/

namespace CellGraph

/-- Why a document describes no graph. -/
inductive RestoreError where
  | describedTwice (id : NodeId)
  | noRoot
  | noRecord (id : NodeId)
  /-- A record is there whose id is not among the edges. -/
  | notListed (id : NodeId)
  /-- The cell of a record is not added. -/
  | notAdded (e : GraphError)
  | edgeRejected (source target : NodeId)
  /-- The inputs of a record are not the cells that feed it. -/
  | inputsMismatch (id : NodeId)
deriving DecidableEq

def RestoreError.message : RestoreError → String
  | .describedTwice id => "node " ++ id.text ++ " is described twice"
  | .noRoot => "document has no root"
  | .noRecord id => "node " ++ id.text ++ " has no field record"
  | .notListed id => "node " ++ id.text ++ " is missing from the edge list"
  | .notAdded e => e.message
  | .edgeRejected source target => "edge " ++ source.text ++ " -> " ++ target.text ++ " was rejected"
  | .inputsMismatch id => "inputs of node " ++ id.text ++ " do not match its edges"

/-- Why a graph is not read or not written. -/
inductive DocumentError where
  /-- The stream gives bytes that are no text. -/
  | stream
  /-- The text is no document, or it breaks off while it is written. -/
  | malformed
  | restore (e : RestoreError)
deriving DecidableEq

def DocumentError.message : DocumentError → String
  | .stream => "I/O error: stream did not contain valid UTF-8"
  | .malformed => "Malformed graph document"
  | .restore e => "Could not rebuild graph: " ++ e.message

/-- The error of a document whose text is not written. -/
def DocumentError.ofWrite : WriteError → DocumentError
  | .full => .malformed

namespace Document

/-- The first id that has two records, going by the place of the second one. -/
def describedTwice? : List Record → List NodeId → Option NodeId
  | [], _ => none
  | r :: rs, before => if before.contains r.id then some r.id else describedTwice? rs (r.id :: before)

/-- Adds a cell to the graph. -/
def addCell (c : Cell) : EStateM RestoreError Graph Unit := do
  match (← get).add c with
  | .ok g => set g
  | .error e => throw (.notAdded e)

/-- Adds the cells of the records, in the order of the ids.  Each id has to have a record, and no record may be left over.
The records come out in that order. -/
def addCells : List NodeId → List Record → EStateM RestoreError Graph (List Record)
  | [], [] => return []
  | [], r :: _ => throw (.notListed r.id)
  | id :: ids, rs => do
    match rs.find? (·.id == id) with
    | none => throw (.noRecord id)
    | some r =>
      addCell r.toCell
      let placed ← addCells ids (rs.eraseP (·.id == id))
      return r :: placed

/-- Adds an edge, which has to be there afterwards. -/
def addEdge (source target : NodeId) : EStateM RestoreError Graph Unit := do
  modify fun g => g.connect source target
  unless (← get).isConnected source target do
    throw (.edgeRejected source target)

/-- Brings the inputs of a cell into the order of its record, which has to list the cells that feed it. -/
def arrangeInputs (r : Record) : EStateM RestoreError Graph Unit := do
  unless r.inputs.isPerm ((← get).inputs r.id) do
    throw (.inputsMismatch r.id)
  modify fun g => g.modify r.id fun c => c.setInputs r.inputs

def edgeList (d : Document) : List (NodeId × NodeId) := d.edges.flatMap fun e => e.2.map fun target => (e.1, target)

/-- Makes the graph the one that a document describes.  If that fails, a part of it is left. -/
def rebuild (d : Document) : EStateM RestoreError Graph Unit := do
  if let some id := describedTwice? d.nodes [] then
    throw (.describedTwice id)
  match d.edges with
  | [] => throw .noRoot
  | (root, _) :: _ =>
    modify fun g => { g with store := .empty, root }
    let records ← addCells (d.edges.map (·.1)) d.nodes
    d.edgeList.forM fun e => addEdge e.1 e.2
    records.forM arrangeInputs

end Document

namespace Graph

/-- The graph after a change that does not fail. -/
def result {ε : Type} (change : EStateM ε Graph Unit) (g : Graph) : Except ε Graph :=
  match change.run g with
  | .ok _ h => .ok h
  | .error e _ => .error e

/-- Makes the graph the one that a document describes.  If that fails, the graph is again what it was before. -/
def restoreInPlace (d : Document) : EStateM RestoreError Graph Unit := do
  let snapshot ← get
  tryCatch d.rebuild fun e => do
    set snapshot
    throw e

/-- The graph that a document describes, with the options of the present one. -/
def restore (g : Graph) (d : Document) : Except RestoreError Graph := g.result (restoreInPlace d)

def dump (g : Graph) : String :=
  if g.config.prettyDump then g.document.toJson.pretty else g.document.toJson.compact

/-- Writes the JSON text of a graph to a stream. -/
def dumpTo (g : Graph) : EStateM DocumentError Sink Unit :=
  (g.document.toJson.writeTo (if g.config.prettyDump then .pretty else .compact) 0).adaptExcept .ofWrite

/-- The bytes that a stream for a number of bytes has when the JSON text of a graph is written to it, and the error if
it fails. -/
def dumpWithin (g : Graph) (room : Nat) : ByteArray × Except DocumentError Unit :=
  match g.dumpTo.run (.ofRoom room) with
  | .ok _ s => (s.written, .ok ())
  | .error e s => (s.written, .error e)

/-- Makes the graph the one that a JSON text describes. -/
def readInPlace (s : String) : EStateM DocumentError Graph Unit :=
  match Document.ofText? s with
  | none => throw .malformed
  | some d => (restoreInPlace d).adaptExcept .restore

/-- Makes the graph the one that the bytes of a JSON text describe. -/
def readBytesInPlace (bytes : ByteArray) : EStateM DocumentError Graph Unit :=
  match String.fromUTF8? bytes with
  | none => throw .stream
  | some s => readInPlace s

/-- The graph that a JSON text describes, with the options of the present one. -/
def read (g : Graph) (s : String) : Except DocumentError Graph := g.result (readInPlace s)

/-- The graph that the bytes of a JSON text describe, with the options of the present one. -/
def readBytes (g : Graph) (bytes : ByteArray) : Except DocumentError Graph := g.result (readBytesInPlace bytes)

end Graph

end CellGraph
