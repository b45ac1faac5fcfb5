import CellGraph.Document.Codec
import CellGraph.Proofs.Cell.Configuration
import CellGraph.Proofs.Json.Tree

/-!
# Reading what was written

The JSON form of a record is read as the record, with two exceptions: a constant that is not finite has no JSON form and
is lost (`Record.written`), and a table or a fallback that is nested too deep is refused (`Record.Shallow`).  So a
document that was written is read with its records as they were written, or not at all (`Document.ofText?_write`).
-/

namespace CellGraph

open Json (Tree)
open Json.StringPiece (pieces text?_pieces)

/-! ### Lists and fields -/

/-- Items that are read one by one. -/
theorem mapM_map_ite {α β γ : Type} {f : β → Option γ} {g : α → β} {r : α → γ} {p : α → Prop} [DecidablePred p]
    {l : List α} (h : ∀ a ∈ l, f (g a) = if p a then some (r a) else none) :
    (l.map g).mapM f = if ∀ a ∈ l, p a then some (l.map r) else none := by
  induction l with
  | nil => simp
  | cons a l ih =>
    rw [List.forall_mem_cons] at h
    rw [List.map_cons, List.mapM_cons, h.1, ih h.2]
    by_cases ha : p a
    · by_cases hl : ∀ b ∈ l, p b
      · rw [if_pos ha, if_pos hl, if_pos (List.forall_mem_cons.2 ⟨ha, hl⟩)]
        rfl
      · rw [if_pos ha, if_neg hl, if_neg fun hall => hl (List.forall_mem_cons.1 hall).2]
        rfl
    · rw [if_neg ha, if_neg fun hall => ha (List.forall_mem_cons.1 hall).1]
      rfl

theorem mapM_map_eq_some {α β γ : Type} {f : β → Option γ} {g : α → β} {r : α → γ} {l : List α}
    (h : ∀ a ∈ l, f (g a) = some (r a)) : (l.map g).mapM f = some (l.map r) := by
  have hall := mapM_map_ite (p := fun _ => True) (f := f) (g := g) (r := r) fun a ha => by rw [h a ha, if_pos trivial]
  rw [hall, if_pos fun _ _ => trivial]

/-- Of members with distinct names there is one at most of each name. -/
theorem filter_name {fs : List (String × Value)} (h : (fs.map (·.1)).Nodup) (name : String) :
    (fs.map fun f => (f.1, f.2.toTree)).filter (·.1 == name) =
      ((fs.lookup name).map fun v => (name, v.toTree)).toList := by
  induction fs with
  | nil => rfl
  | cons f fs ih =>
    rw [List.map_cons, List.nodup_cons] at h
    rw [List.map_cons, List.lookup_cons]
    by_cases hf : f.1 = name
    · have hnone : (fs.map fun f => (f.1, f.2.toTree)).filter (·.1 == name) = [] := by
        rw [List.filter_eq_nil_iff]
        intro m hm
        obtain ⟨g, hg, rfl⟩ := List.mem_map.1 hm
        have hne : g.1 ≠ name := fun hgn => h.1 (hf ▸ hgn ▸ List.mem_map_of_mem hg)
        simpa using hne
      rw [List.filter_cons_of_pos (by simpa using hf), hnone, hf, beq_self_eq_true]
      rfl
    · rw [List.filter_cons_of_neg (by simpa using hf), ih h.2, beq_false_of_ne (Ne.symm hf)]

/-- The fields of a structure are the members of their names. -/
theorem fields?_toTree (names : List String) (fs : List (String × Value)) (h : (fs.map (·.1)).Nodup) :
    (Value.object (.ofList fs)).toTree.fields? names =
      some (names.map fun name => (fs.lookup name).map Value.toTree) := by
  have hmembers : (Value.toMembers (.ofList fs)).mapM (fun m => do return (← Json.StringPiece.text? m.1, m.2)) =
      some (fs.map fun f => (f.1, f.2.toTree)) := by
    rw [Value.toMembers_eq_map, Members.toList_ofList h]
    exact mapM_map_eq_some fun f _ => by simp [text?_pieces]
  rw [Value.toTree, Tree.fields?, hmembers]
  show names.mapM _ = _
  conv_lhs => rw [← List.map_id names]
  refine mapM_map_eq_some fun name _ => ?_
  rw [id, filter_name h name]
  rcases fs.lookup name with _ | v
  · rfl
  · rfl

/-! ### Parts of a record -/

theorem Json.Tree.word?_toTree (n : UInt32) : (NodeId.toJson ⟨n⟩).toTree.word? = some n := by
  rw [NodeId.toJson, Value.toTree, Tree.word?, Number.number?_numeral]
  have hlt := n.toNat_lt
  have hsmall : n.toNat < UInt32.size := hlt
  simp [hsmall]

namespace NodeId

theorem ofTree?_toTree (id : NodeId) : ofTree? id.toJson.toTree = some id := by
  rw [ofTree?, Tree.word?_toTree]
  rfl

theorem listOfTree?_toTree (ids : List NodeId) : listOfTree? (Value.array (ids.map toJson)).toTree = some ids := by
  have hitems := mapM_map_eq_some (l := ids) (r := id) fun i _ => ofTree?_toTree i
  rw [List.map_id] at hitems
  rw [listOfTree?, Value.toTree, Value.toTrees_eq_map, List.map_map]
  exact hitems

end NodeId

namespace Formula

/-- Whether a formula is no constant beyond the finite doubles. -/
def isFinite : Formula → Bool
  | .number x => x.isFinite
  | .expression _ => true

/-- A formula is read as itself, or as none if it is a constant that is not finite. -/
theorem readNullable_toTree (f : Formula) :
    readNullable ofTree? (some f.toJson.toTree) = some (if f.isFinite then some f else none) := by
  cases f with
  | number x =>
    by_cases hx : x.isFinite = true
    · simp only [toJson, Number.ofFloat?, hx, ↓reduceDIte, Option.map_some, Option.getD_some, Value.toTree,
        readNullable, ofTree?, Number.number?_numeral, Number.toFloat, isFinite, ↓reduceIte]
    · simp only [toJson, Number.ofFloat?, hx, ↓reduceDIte, Option.map_none, Option.getD_none, Value.toTree,
        readNullable, isFinite, Bool.false_eq_true, ↓reduceIte]
  | expression s =>
    simp only [toJson, Value.toTree, readNullable, ofTree?, text?_pieces, Option.map_some, isFinite, ↓reduceIte]

end Formula

namespace Table

/-- A table whose keys and values are nested within a limit. -/
def Shallow (depth : Nat) (t : Table) : Prop := ∀ e ∈ t.entries, e.1.nesting ≤ depth ∧ e.2.nesting ≤ depth

instance (depth : Nat) (t : Table) : Decidable (t.Shallow depth) :=
  inferInstanceAs (Decidable (∀ e ∈ t.entries, e.1.nesting ≤ depth ∧ e.2.nesting ≤ depth))

/-- The JSON form of a table whose keys do not match is read as the table, if it is not nested too deep. -/
theorem ofTree?_toTree {t : Table} (h : ofList t.entries = t) (depth : Nat) :
    ofTree? depth t.toJson.toTree = if t.Shallow depth then some t else none := by
  have hentry : ∀ e ∈ t.entries, entryOfTree? depth (Value.array [e.1, e.2]).toTree =
      if e.1.nesting ≤ depth ∧ e.2.nesting ≤ depth then some e else none := by
    intro e _
    have hk := Value.value?_toTree e.1 depth
    have hv := Value.value?_toTree e.2 depth
    rw [Value.toTree, Value.toTrees, Value.toTrees, Value.toTrees, entryOfTree?, Tree.items?]
    simp only [Option.bind_eq_bind, Option.bind_some, hk, hv]
    by_cases h1 : e.1.nesting ≤ depth <;> by_cases h2 : e.2.nesting ≤ depth <;> simp [h1, h2]
  have hitems := mapM_map_ite (g := fun e : Value × Value => (Value.array [e.1, e.2]).toTree) (r := id) hentry
  rw [List.map_id] at hitems
  rw [toJson, Value.toTree, Value.toTrees_eq_map, List.map_map, ofTree?, Tree.items?]
  show ((t.entries.map _).mapM (entryOfTree? depth)).bind _ = _
  rw [Function.comp_def, hitems]
  by_cases hall : ∀ e ∈ t.entries, e.1.nesting ≤ depth ∧ e.2.nesting ≤ depth
  · have hshallow : t.Shallow depth := hall
    rw [if_pos hall, if_pos hshallow]
    exact congrArg some h
  · have hshallow : ¬ t.Shallow depth := hall
    rw [if_neg hall, if_neg hshallow]
    rfl

end Table

/-! ### Records -/

namespace Record

/-- A record around which there is space for its own fields to be nested `depth` deep.  The keys and values of a table
stand inside the list of entries and inside an entry. -/
def Shallow (depth : Nat) (r : Record) : Prop := r.table.Shallow (depth - 2) ∧ ∀ v ∈ r.fallback, v.nesting ≤ depth

instance (depth : Nat) (r : Record) : Decidable (r.Shallow depth) :=
  inferInstanceAs (Decidable (_ ∧ ∀ v ∈ r.fallback, v.nesting ≤ depth))

/-- A record as it is written: a constant that is not finite is not there. -/
def written (r : Record) : Record := { r with formula := r.formula.filter Formula.isFinite }

/-- The JSON form of a record has its fields under their names. -/
private theorem fields?_toJson (r : Record) : r.toJson.toTree.fields? fieldNames = some
    [some r.id.toJson.toTree, some (.string (pieces r.name)), r.formula.map fun f => f.toJson.toTree,
      some (Value.array (r.inputs.map NodeId.toJson)).toTree, some r.table.toJson.toTree,
      r.fallback.map Value.toTree, r.precision.map fun places => (NodeId.toJson ⟨places⟩).toTree] := by
  obtain ⟨id, name, formula, inputs, table, fallback, precision⟩ := r
  rcases formula with _ | f <;> rcases fallback with _ | v <;> rcases precision with _ | places <;>
    exact fields?_toTree fieldNames _ (by simp)

/-- The JSON form of a record is read as the record as it is written, if its values are not nested too deep. -/
theorem ofTree?_toTree {r : Record} (htable : Table.ofList r.table.entries = r.table) (depth : Nat) :
    ofTree? depth r.toJson.toTree = if r.Shallow depth then some r.written else none := by
  have hformula : readNullable Formula.ofTree? (r.formula.map fun f => f.toJson.toTree) =
      some (r.formula.filter Formula.isFinite) := by
    rcases r.formula with _ | f
    · rfl
    · exact f.readNullable_toTree
  have hname : readField Tree.text? "" (some (.string (pieces r.name))) = some r.name := text?_pieces r.name
  have hinputs : readField NodeId.listOfTree? [] (some (Value.array (r.inputs.map NodeId.toJson)).toTree) =
      some r.inputs := NodeId.listOfTree?_toTree r.inputs
  have htable' : readField (Table.ofTree? (depth - 2)) .empty (some r.table.toJson.toTree) =
      if r.table.Shallow (depth - 2) then some r.table else none := Table.ofTree?_toTree htable _
  have hfallback : readField (fun t : Tree => (t.value? depth).map some) none (r.fallback.map Value.toTree) =
      if ∀ v ∈ r.fallback, v.nesting ≤ depth then some r.fallback else none := by
    rcases r.fallback with _ | v
    · rw [if_pos nofun]
      rfl
    · have hvalue : readField (fun t : Tree => (t.value? depth).map some) none (some v.toTree) =
          (v.toTree.value? depth).map some := rfl
      rw [Option.map_some, hvalue, Value.value?_toTree v depth]
      by_cases hv : v.nesting ≤ depth <;> simp [hv]
  have hprecision : readNullable Tree.word? (r.precision.map fun places => (NodeId.toJson ⟨places⟩).toTree) =
      some r.precision := by
    rcases r.precision with _ | places
    · rfl
    · exact congrArg (Option.map some) (Tree.word?_toTree places)
  rw [ofTree?, fields?_toJson]
  simp only [Option.bind_eq_bind, Option.bind_some, NodeId.ofTree?_toTree, hname, hformula, hinputs, htable', hfallback,
    hprecision]
  by_cases h1 : r.table.Shallow (depth - 2)
  · by_cases h2 : ∀ v ∈ r.fallback, v.nesting ≤ depth
    · have hshallow : r.Shallow depth := ⟨h1, h2⟩
      rw [if_pos h1, if_pos h2, if_pos hshallow]
      rfl
    · have hdeep : ¬ r.Shallow depth := fun h => h2 h.2
      rw [if_pos h1, if_neg h2, if_neg hdeep]
      rfl
  · have hdeep : ¬ r.Shallow depth := fun h => h1 h.1
    rw [if_neg h1, if_neg hdeep]
    rfl

end Record

/-! ### Documents -/

namespace Document

/-- A document as it is written. -/
def written (d : Document) : Document := { d with nodes := d.nodes.map Record.written }

theorem edgesOfTree?_toTree (e : NodeId × List NodeId) : edgesOfTree? (edgesToJson e).toTree = some e := by
  rw [edgesToJson, Value.toTree, Value.toTrees, Value.toTrees, Value.toTrees, edgesOfTree?, Tree.items?]
  simp only [Option.bind_eq_bind, Option.bind_some, NodeId.ofTree?_toTree, NodeId.listOfTree?_toTree]
  rfl

/-- The JSON form of a document is read as the document as it is written, if no record has values that are nested too
deep. -/
theorem ofTree?_toTree {d : Document} (htable : ∀ r ∈ d.nodes, Table.ofList r.table.entries = r.table) :
    ofTree? d.toJson.toTree =
      if ∀ r ∈ d.nodes, r.Shallow (Tree.nestingLimit - 3) then some d.written else none := by
  have hedges : (d.edges.map fun e => (edgesToJson e).toTree).mapM edgesOfTree? = some d.edges := by
    have hedges := mapM_map_eq_some (l := d.edges) (r := id) fun e _ => edgesOfTree?_toTree e
    rwa [List.map_id] at hedges
  have hnodes := mapM_map_ite (l := d.nodes) fun r hr =>
    Record.ofTree?_toTree (htable r hr) (Tree.nestingLimit - 3)
  have hfields : d.toJson.toTree.fields? fieldNames =
      some [some (.array (d.edges.map fun e => (edgesToJson e).toTree)),
        some (.array (d.nodes.map fun r => r.toJson.toTree))] := by
    have hfields := fields?_toTree fieldNames [("edges", .array (d.edges.map edgesToJson)),
      ("nodes", .array (d.nodes.map Record.toJson))] (by simp)
    refine hfields.trans ?_
    show some [some (Value.array (d.edges.map edgesToJson)).toTree,
      some (Value.array (d.nodes.map Record.toJson)).toTree] = _
    rw [Value.toTree, Value.toTree, Value.toTrees_eq_map, Value.toTrees_eq_map, List.map_map, List.map_map]
    rfl
  rw [ofTree?, hfields]
  simp only [Option.bind_eq_bind, Option.bind_some, Tree.items?, hedges, hnodes]
  by_cases h : ∀ r ∈ d.nodes, r.Shallow (Tree.nestingLimit - 3)
  · rw [if_pos h, if_pos h]
    rfl
  · rw [if_neg h, if_neg h]
    rfl

/-- The text of a document is read in the same way. -/
theorem ofText?_write {d : Document} (htable : ∀ r ∈ d.nodes, Table.ofList r.table.entries = r.table) {sp : Spacing}
    (hsp : sp.Blank) :
    ofText? (.ofList (d.toJson.write sp 0 [])) =
      if ∀ r ∈ d.nodes, r.Shallow (Tree.nestingLimit - 3) then some d.written else none := by
  rw [ofText?, Value.ofText?_write hsp, Option.bind_some, ofTree?_toTree htable]

end Document

end CellGraph
