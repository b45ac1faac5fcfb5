import CellGraph.Document.Record
import CellGraph.Proofs.Cell.Configuration

/-!
# Records and cells

A cell that is made from a record is new apart from its configuration (`Record.toCell_eq`).  The record of a cell with a
well-formed table tells its whole configuration (`Record.toCell_ofCell`).
-/

namespace CellGraph

/-- A table with one more entry.  A `null` key stands for no key and changes nothing. -/
def Table.addEntry (t : Table) (e : Value × Value) : Table :=
  match e.1 with
  | .null => t
  | key => t.insert key e.2

theorem Table.WellFormed.foldl_addEntry {t : Table} (h : t.WellFormed) : t.entries.foldl addEntry .empty = t := by
  have hinsert : ∀ (es : List (Value × Value)), .null ∉ es.map (·.1) → ∀ s : Table,
      es.foldl addEntry s = es.foldl (fun s e => s.insert e.1 e.2) s := by
    intro es
    induction es with
    | nil => exact fun _ _ => rfl
    | cons e es ih =>
      intro hnull s
      rw [List.map_cons, List.mem_cons, not_or] at hnull
      have hadd : s.addEntry e = s.insert e.1 e.2 := by
        unfold addEntry
        split
        · rename_i hkey
          exact absurd hkey.symm hnull.1
        · rfl
      rw [List.foldl_cons, List.foldl_cons, hadd, ih hnull.2]
  rw [hinsert _ h.not_null]
  exact h.ofList_entries

namespace Record

/-- The rule that a record tells: its formula, or else its table. -/
def rule (r : Record) : Rule :=
  match r.formula with
  | some f => .formula f
  | none => .lookup (r.table.entries.foldl Table.addEntry .empty)

/-- Setting the entries of a table one after the other, in a stale cell that has a table. -/
private theorem foldl_setEntry (c : Cell) (es : List (Value × Value)) (t : Table) :
    es.foldl (fun (c : Cell) (e : Value × Value) => c.setEntry e.1 e.2) { c with rule := .lookup t, state := .stale } =
      { c with rule := .lookup (es.foldl Table.addEntry t), state := .stale } := by
  induction es generalizing t with
  | nil => rfl
  | cons e es ih =>
    obtain ⟨key, v⟩ := e
    rw [List.foldl_cons, List.foldl_cons, ← ih]
    cases key <;> rfl

/-- A cell that is made from a record is new apart from its configuration. -/
theorem toCell_eq (r : Record) : r.toCell =
    { Cell.bare r.id r.name with rule := r.rule, fallback := r.fallback, precision := r.precision } := by
  have htable := foldl_setEntry (.bare r.id r.name) r.table.entries .empty
  obtain ⟨id, name, formula, inputs, table, fallback, precision⟩ := r
  unfold toCell rule
  rcases formula with _ | f <;> rcases fallback with _ | v
  · exact congrArg (fun c : Cell => c.setPrecision precision) htable
  · exact congrArg (fun c : Cell => (c.setFallback (some v)).setPrecision precision) htable
  · rfl
  · rfl

theorem id_toCell (r : Record) : r.toCell.id = r.id := by
  rw [toCell_eq]
  rfl

/-- Setting a formula or entries, a fallback and a precision are calls on a new cell. -/
theorem reachable_toCell (r : Record) : r.toCell.Reachable := by
  have hentries : ∀ (es : List (Value × Value)) (c : Cell), c.Reachable →
      (es.foldl (fun (c : Cell) (e : Value × Value) => c.setEntry e.1 e.2) c).Reachable := by
    intro es
    induction es with
    | nil => exact fun _ hc => hc
    | cons e es ih => exact fun c hc => ih _ (hc.call (.setEntry e.1 e.2))
  have hbare := Cell.Reachable.bare r.id r.name
  unfold Record.toCell
  apply Cell.Reachable.call (.setPrecision r.precision)
  rcases r.formula with _ | f
  · rcases r.fallback with _ | v
    · exact hentries _ _ hbare
    · exact (hentries _ _ hbare).call (.setFallback (some v))
  · rcases r.fallback with _ | v
    · exact hbare.call (.setFormula f)
    · exact (hbare.call (.setFormula f)).call (.setFallback (some v))

/-- The record of a cell that is made from a record and gets its inputs. -/
theorem ofCell_toCell (r : Record) : ofCell (r.toCell.setInputs r.inputs) = { r with table := r.rule.table } := by
  have hformula : r.rule.formula? = r.formula := by
    unfold rule
    rcases r.formula with _ | f <;> rfl
  rw [toCell_eq, ofCell, Cell.formula?, Cell.table]
  show Record.mk r.id r.name r.rule.formula? r.inputs r.rule.table r.fallback r.precision = _
  rw [hformula]

/-- The record of a cell with a well-formed table tells the rule of the cell. -/
theorem rule_ofCell {c : Cell} (h : c.table.WellFormed) : (ofCell c).rule = c.rule := by
  obtain ⟨id, name, inputs, rule, fallback, precision, state, program⟩ := c
  cases rule with
  | formula f => rfl
  | lookup t =>
    have ht : t.WellFormed := h
    exact congrArg Rule.lookup ht.foldl_addEntry

theorem toCell_ofCell {c : Cell} (h : c.table.WellFormed) :
    (ofCell c).toCell.setInputs c.inputs = { c with state := .stale, program := .missing } := by
  rw [toCell_eq, rule_ofCell h]
  rfl

end Record

end CellGraph
