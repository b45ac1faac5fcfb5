import CellGraph.Proofs.Cell.Reachable

/-!
# The formula and the table of a cell

The setters of a cell keep `null` out of its table and let no two keys match, so every reachable cell has a well-formed
table (`Reachable.table_wellFormed`).  Filling an empty table with the entries of a well-formed one gives that one back
(`Table.WellFormed.ofList_entries`).  Whoever sets a formula drops the table, and whoever sets or erases an entry drops
the formula, so if both were kept side by side, one of them would always be missing (`Reachable.unambiguous`).
-/

namespace CellGraph

namespace Table

def keys (t : Table) : List Value := t.entries.map (·.1)

/-- No key is `null`, and no key matches one before it. -/
structure WellFormed (t : Table) : Prop where
  not_null : .null ∉ t.keys
  distinct : t.keys.Pairwise fun k l => k.keyMatches l = false

theorem wellFormed_empty : empty.WellFormed := ⟨List.not_mem_nil, .nil⟩

/-- Setting a value leaves the keys as they are, or adds one that matches none of them. -/
theorem keys_insert (t : Table) (key v : Value) : (t.insert key v).keys = t.keys ∨
    (t.insert key v).keys = t.keys ++ [key] ∧ ∀ k ∈ t.keys, k.keyMatches key = false := by
  rcases t.entries_insert_cases key v with ⟨before, e, after, hentries, -, -, hinsert⟩ | ⟨hnew, hinsert⟩
  · refine Or.inl ?_
    rw [keys, keys, hinsert, hentries, List.map_append, List.map_append]
    rfl
  · refine Or.inr ⟨?_, List.forall_mem_map.2 hnew⟩
    rw [keys, hinsert, List.map_append]
    rfl

/-- Setting a value lets no two keys match. -/
theorem distinct_insert {t : Table} (h : t.keys.Pairwise fun k l => k.keyMatches l = false) (key v : Value) :
    (t.insert key v).keys.Pairwise fun k l => k.keyMatches l = false := by
  rcases t.keys_insert key v with hkeys | ⟨hkeys, hnew⟩
  · rwa [hkeys]
  · rw [hkeys, List.pairwise_append]
    refine ⟨h, List.pairwise_singleton _ _, fun k hk l hl => ?_⟩
    rw [List.mem_singleton.1 hl]
    exact hnew k hk

theorem WellFormed.insert {t : Table} (h : t.WellFormed) {key : Value} (hkey : key ≠ .null) (v : Value) :
    (t.insert key v).WellFormed := by
  refine ⟨?_, distinct_insert h.distinct key v⟩
  rcases t.keys_insert key v with hkeys | ⟨hkeys, -⟩
  · exact hkeys ▸ h.not_null
  · rw [hkeys, List.mem_append, List.mem_singleton]
    exact fun hnull => hnull.elim h.not_null fun heq => hkey heq.symm

theorem WellFormed.erase {t : Table} (h : t.WellFormed) (key : Value) : (t.erase key).WellFormed := by
  have hsub : (t.erase key).keys.Sublist t.keys := (List.eraseP_sublist ..).map _
  exact ⟨fun hnull => h.not_null (hsub.subset hnull), h.distinct.sublist hsub⟩

/-- Entries whose keys match none of those before come last in a table, in their order. -/
theorem entries_foldl_insert {es : List (Value × Value)} {t : Table}
    (h : ((t.entries ++ es).map (·.1)).Pairwise fun k l => k.keyMatches l = false) :
    (es.foldl (fun t e => t.insert e.1 e.2) t).entries = t.entries ++ es := by
  induction es generalizing t with
  | nil => exact (List.append_nil _).symm
  | cons e es ih =>
    have hnew : ∀ d ∈ t.entries, d.1.keyMatches e.1 = false := by
      intro d hd
      rw [List.map_append, List.pairwise_append] at h
      exact h.2.2 d.1 (List.mem_map_of_mem hd) e.1 (List.mem_map_of_mem (List.mem_cons_self ..))
    have hentries := entries_insert_of_new hnew e.2
    rw [List.foldl_cons, ih, hentries, List.append_assoc, List.singleton_append]
    rwa [hentries, List.append_assoc, List.singleton_append]

theorem ofList_of_distinct {es : List (Value × Value)}
    (h : (es.map (·.1)).Pairwise fun k l => k.keyMatches l = false) : ofList es = ⟨es⟩ :=
  congrArg Table.mk (entries_foldl_insert (t := empty) h)

theorem WellFormed.ofList_entries {t : Table} (h : t.WellFormed) : ofList t.entries = t := ofList_of_distinct h.distinct

end Table

namespace Cell

variable {c : Cell}

theorem rule_compile (c : Cell) : c.compile.rule = c.rule := by
  unfold compile
  split
  · split <;> rfl
  · rfl

theorem rule_removeInput (c : Cell) (id : NodeId) : (c.removeInput id).rule = c.rule := by
  unfold removeInput
  split <;> rfl

theorem rule_clearInputs (c : Cell) : c.clearInputs.rule = c.rule := by
  unfold clearInputs
  split <;> rfl

/-! ### Formula and table side by side -/

/-- A formula and a table that are kept side by side. -/
structure Settings where
  formula : Option Formula
  table : Table

/-- What a call does to a formula and a table that are kept side by side. -/
def Call.set : Call → Settings → Settings
  | .setFormula f, _ => ⟨some f, .empty⟩
  | .clearFormula, s => ⟨none, s.table⟩
  | .setEntry .null _, s => s
  | .setEntry key v, s => ⟨none, s.table.insert key v⟩
  | .eraseEntry key, s => ⟨none, s.table.erase key⟩
  | _, s => s

/-- There is no formula beside a table with entries, and the table is well-formed. -/
structure Settings.Unambiguous (s : Settings) : Prop where
  exclusive : s.formula = none ∨ s.table.entries = []
  table : s.table.WellFormed

theorem Call.set_setEntry {key : Value} (hkey : key ≠ .null) (v : Value) (s : Settings) :
    (Call.setEntry key v).set s = ⟨none, s.table.insert key v⟩ := by
  cases key with
  | null => exact absurd rfl hkey
  | _ => rfl

/-- Every call drops the formula or the table if it sets the other one. -/
theorem Settings.Unambiguous.set {s : Settings} (h : s.Unambiguous) (call : Call) : (call.set s).Unambiguous := by
  cases call with
  | setFormula f => exact ⟨Or.inr rfl, Table.wellFormed_empty⟩
  | clearFormula => exact ⟨Or.inl rfl, h.table⟩
  | setEntry key v =>
    by_cases hkey : key = .null
    · rw [hkey]
      exact h
    · rw [Call.set_setEntry hkey]
      exact ⟨Or.inl rfl, h.table.insert hkey v⟩
  | eraseEntry key => exact ⟨Or.inl rfl, h.table.erase key⟩
  | _ => exact h

def settings (c : Cell) : Settings := ⟨c.formula?, c.table⟩

/-- A call does to the formula and the table of a cell what it does to any side by side. -/
theorem settings_apply (call : Call) (c : Cell) : (call.apply c).settings = call.set c.settings := by
  have hcompile : c.compile.settings = c.settings := by
    rw [settings, formula?, table, rule_compile]
    rfl
  cases call with
  | setEntry key v => cases key <;> rfl
  | compile => exact hcompile
  | evaluate l => exact (congrArg settings (c.snd_evaluate l)).trans hcompile
  | _ => rfl

/-- A reachable cell has no formula beside a table with entries, and its table is well-formed. -/
theorem Reachable.unambiguous (h : c.Reachable) : c.settings.Unambiguous := by
  induction h with
  | bare => exact ⟨Or.inl rfl, Table.wellFormed_empty⟩
  | call call _ ih =>
    rw [settings_apply]
    exact ih.set call
  | removeInput id _ ih =>
    rw [settings, formula?, table, rule_removeInput]
    exact ih
  | clearInputs _ ih =>
    rw [settings, formula?, table, rule_clearInputs]
    exact ih
  | addInput _ _ ih => exact ih
  | setInputs _ _ ih => exact ih
  | invalidate _ ih => exact ih

/-- The table of a reachable cell is well-formed. -/
theorem Reachable.table_wellFormed (h : c.Reachable) : c.table.WellFormed := h.unambiguous.table

end Cell

end CellGraph
