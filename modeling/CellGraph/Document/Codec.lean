import CellGraph.Document.Record
import CellGraph.Json.Printer
import CellGraph.Json.Tree

/-!
# JSON forms of documents

Each structure has a JSON form (`toJson`) and is read from the shape of a JSON text (`ofTree?`).  A structure is read
from an object or from an array of its fields.  In a record only the id has to be there; a formula or a precision
that is `null` is not there, while a fallback that is `null` is there.  A graph is written in the way that its options
say.
-/

namespace CellGraph

open Json (Tree)

/-! ### Parts -/

namespace NodeId

def toJson (id : NodeId) : Value :=
  .number (.int id.val.toNat (by have := id.val.toNat_lt; omega))

def ofTree? (t : Tree) : Option NodeId := t.word?.map .mk

def listOfTree? (t : Tree) : Option (List NodeId) := t.items?.bind fun ts => ts.mapM ofTree?

end NodeId

namespace Formula

/-- The JSON form of a formula.  A constant that is not finite has none but `null`. -/
def toJson : Formula → Value
  | .number x => ((Number.ofFloat? x).map .number).getD .null
  | .expression s => .string s

/-- A formula: a number, also when it is written as an integer, or a text. -/
def ofTree? : Tree → Option Formula
  | .numeral n => n.number?.map fun m => .number m.toFloat
  | .string ps => (Json.StringPiece.text? ps).map .expression
  | _ => none

end Formula

namespace Table

/-- The JSON form of a table: its entries in order, each a key and a value. -/
def toJson (t : Table) : Value := .array (t.entries.map fun e => .array [e.1, e.2])

/-- An entry of a table, with values nested at most `depth` deep. -/
def entryOfTree? (depth : Nat) (t : Tree) : Option (Value × Value) := do
  match ← t.items? with
  | [key, v] => return (← key.value? depth, ← v.value? depth)
  | _ => none

/-- A table; entries with matching keys are one. -/
def ofTree? (depth : Nat) (t : Tree) : Option Table := do
  let entries ← (← t.items?).mapM (entryOfTree? depth)
  return ofList entries

end Table

/-- A field that can be left out, and then has a default. -/
def readField {α : Type} (read? : Tree → Option α) (default : α) : Option Tree → Option α
  | none => some default
  | some t => read? t

/-- A field that can be left out or `null`, and then is not there. -/
def readNullable {α : Type} (read? : Tree → Option α) : Option Tree → Option (Option α)
  | none => some none
  | some .null => some none
  | some t => (read? t).map some

/-! ### Records -/

namespace Record

/-- The names of the fields, in the order of an array. -/
def fieldNames : List String := ["id", "name", "formula", "inputs", "enum", "fallback", "precision"]

/-- The JSON form of a record.  Formula, fallback and precision are left out if they are not there. -/
def toJson (r : Record) : Value :=
  .object <| .ofList <|
    [("id", r.id.toJson), ("name", .string r.name)] ++
    (match r.formula with
      | some f => [("formula", f.toJson)]
      | none => []) ++
    [("inputs", .array (r.inputs.map NodeId.toJson)), ("enum", r.table.toJson)] ++
    (match r.fallback with
      | some v => [("fallback", v)]
      | none => []) ++
    (match r.precision with
      | some places => [("precision", NodeId.toJson ⟨places⟩)]
      | none => [])

/-- A record around which a text is nested in such a way that its own fields can be nested `depth` deep. -/
def ofTree? (depth : Nat) (t : Tree) : Option Record := do
  match ← t.fields? fieldNames with
  | [some id, name, formula, inputs, table, fallback, precision] =>
    return {
      id := ← NodeId.ofTree? id
      name := ← readField Tree.text? "" name
      formula := ← readNullable Formula.ofTree? formula
      inputs := ← readField NodeId.listOfTree? [] inputs
      -- keys and values stand inside the list of entries and inside an entry
      table := ← readField (Table.ofTree? (depth - 2)) .empty table
      fallback := ← readField (fun t => (t.value? depth).map some) none fallback
      precision := ← readNullable Tree.word? precision
    }
  | _ => none

def ofText? (s : String) : Option Record := (Tree.ofText? s).bind (ofTree? (Tree.nestingLimit - 1))

end Record

/-! ### Documents -/

namespace Document

/-- The names of the fields, in the order of an array. -/
def fieldNames : List String := ["edges", "nodes"]

def edgesToJson (e : NodeId × List NodeId) : Value := .array [e.1.toJson, .array (e.2.map NodeId.toJson)]

def toJson (d : Document) : Value :=
  .object (.ofList [("edges", .array (d.edges.map edgesToJson)), ("nodes", .array (d.nodes.map Record.toJson))])

def edgesOfTree? (t : Tree) : Option (NodeId × List NodeId) := do
  match ← t.items? with
  | [id, targets] => return (← NodeId.ofTree? id, ← NodeId.listOfTree? targets)
  | _ => none

def ofTree? (t : Tree) : Option Document := do
  match ← t.fields? fieldNames with
  | [some edges, some nodes] =>
    return {
      edges := ← (← edges.items?).mapM edgesOfTree?
      nodes := ← (← nodes.items?).mapM (Record.ofTree? (Tree.nestingLimit - 3))
    }
  | _ => none

def ofText? (s : String) : Option Document := (Tree.ofText? s).bind ofTree?

end Document

/-! ### Options -/

namespace Config

/-- The names of the fields, in the order of an array. -/
def fieldNames : List String := ["root_name", "root_formula", "pretty_dump"]

def toJson (c : Config) : Value :=
  .object (.ofList [("root_name", .string c.rootName), ("root_formula", .string c.rootFormula),
    ("pretty_dump", .bool c.prettyDump)])

/-- The options of a graph; one that is left out is the standard one. -/
def ofTree? (t : Tree) : Option Config := do
  match ← t.fields? fieldNames with
  | [rootName, rootFormula, prettyDump] =>
    return {
      rootName := ← readField Tree.text? standard.rootName rootName
      rootFormula := ← readField Tree.text? standard.rootFormula rootFormula
      prettyDump := ← readField Tree.bool? standard.prettyDump prettyDump
    }
  | _ => none

def ofText? (s : String) : Option Config := (Tree.ofText? s).bind ofTree?

end Config

end CellGraph
