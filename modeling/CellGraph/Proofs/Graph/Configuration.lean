import CellGraph.Proofs.Graph.Programs

/-!
# Cells are told by their records

A record can hold a formula beside a table, and a table with `null` for a key or with a key twice.  A cell cannot:
calls set its formula and its table as they would set any two that are kept side by side, and one is always missing.
So the record of a cell tells the cell (`configuration_unambiguous`), wherever the cell comes from: from calls, out of a
graph or from a record of any kind.
-/

namespace CellGraph

/-- Making a cell from the record of a cell gives its configuration back, and no inputs. -/
theorem Cell.Reachable.ofCell_toCell {c : Cell} (h : c.Reachable) :
    Record.ofCell (Record.ofCell c).toCell = { Record.ofCell c with inputs := [] } := by
  rw [Record.toCell_eq, Record.rule_ofCell h.table_wellFormed]
  rfl

/-- A reachable cell never has a formula together with a table that has entries, its table has no `null` key and no two
keys that match, and making a cell from its record gives back its id, name, formula, table, fallback and precision.
Calls do to the formula and the table of a cell what they would do to these side by side.  Cells that are made from a
record of any kind, cells in a graph, whatever was restored there or put in the place of others, and cells that are taken
out of one are reachable. -/
theorem configuration_unambiguous :
    (∀ c : Cell, c.Reachable →
      c.settings.Unambiguous ∧
      (∀ call : Cell.Call, (call.apply c).settings = call.set c.settings) ∧
      Record.ofCell (Record.ofCell c).toCell = { Record.ofCell c with inputs := [] }) ∧
    (∀ r : Record, r.toCell.Reachable) ∧
    ∀ g : Graph, g.Assigned →
      (∀ id c, g.cell? id = some c → c.Reachable) ∧ ∀ id c h, g.remove id = .ok (c, h) → c.Reachable :=
  ⟨fun c hc => ⟨hc.unambiguous, fun call => Cell.settings_apply call c, hc.ofCell_toCell⟩, Record.reachable_toCell,
    fun _ hg => ⟨fun _ _ => hg.cell, fun _ _ _ => hg.removed⟩⟩

/-- A record with a `null` key and a key twice, with a formula beside the table and without one. -/
theorem configuration_unambiguous_of_repeated :
    let table : Table := ⟨[(.null, .bool true), (.string "k", .null), (.string "k", .bool false)]⟩
    let both : Record := ⟨⟨1⟩, "a", some (.expression "$1"), [], table, none, none⟩
    let one : Record := ⟨⟨1⟩, "a", none, [], table, none, none⟩
    both.toCell.settings = ⟨some (.expression "$1"), .empty⟩ ∧
      one.toCell.settings = ⟨none, ⟨[(.string "k", .bool false)]⟩⟩ ∧
      both.toCell.settings.Unambiguous ∧ one.toCell.settings.Unambiguous ∧
      Record.ofCell (Record.ofCell one.toCell).toCell = Record.ofCell one.toCell := by
  intro table both one
  obtain ⟨hcell, hrecord, -⟩ := configuration_unambiguous
  exact ⟨rfl, rfl, (hcell _ (hrecord both)).1, (hcell _ (hrecord one)).1, (hcell _ (hrecord one)).2.2⟩

end CellGraph
