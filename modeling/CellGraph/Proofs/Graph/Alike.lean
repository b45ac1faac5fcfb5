import CellGraph.Document.Record
import CellGraph.Proofs.Cell.Outcome
import CellGraph.Proofs.Graph.Reachable

/-!
# Graphs that are alike

Two graphs are alike if they have the same root, members and edges and the same configurations of cells
(`Graph.Alike`).  Such graphs have the same order, the same schedule and the same document.  If their cells are up to
date, they have the same ledger (`Alike.evaluate`) and the same diagnostics (`Alike.diagnostics`), whichever of the
cells have been compiled in each of them.
-/

namespace CellGraph

theorem Cell.rule_of_record {c c' : Cell} (h : Record.ofCell c' = Record.ofCell c) : c'.rule = c.rule :=
  Rule.ext_views (congrArg Record.formula h) (congrArg Record.table h)

/-- Cells with the same record come to the same on the same values. -/
theorem Cell.outcome_of_record {c c' : Cell} (h : Record.ofCell c' = Record.ofCell c) (args : List (Option Value)) :
    c'.outcome args = c.outcome args :=
  Cell.outcome_congr (Cell.rule_of_record h) (congrArg Record.fallback h) (congrArg Record.precision h)
    (congrArg Record.inputs h) args

theorem Cell.UpToDate.ofCell_compile {c : Cell} (h : c.UpToDate) : Record.ofCell c.compile = Record.ofCell c := by
  rcases h.compile_cases with ⟨program, -, hnew⟩ | ⟨e, -, hnew⟩
  · rw [hnew]
    rfl
  · rw [hnew]
    rfl

theorem Cell.UpToDate.failure?_compile_iff {c : Cell} (h : c.UpToDate) {e : Formula.CompileError} :
    c.compile.failure? = some e ↔ c.rule.compile c.inputs.length = .error e := by
  rcases h.compile_cases with ⟨program, hc, hnew⟩ | ⟨e', hc, hnew⟩
  · rw [hnew, hc]
    constructor
    · exact fun h => nomatch h
    · exact fun h => nomatch h
  · rw [hnew, hc]
    show some e' = some e ↔ _
    rw [Option.some.injEq, Except.error.injEq]

/-- Cells with the same record that are up to date fail to compile in the same way. -/
theorem Cell.UpToDate.failure?_compile_of_record {c c' : Cell} (hc : c.UpToDate) (hc' : c'.UpToDate)
    (h : Record.ofCell c' = Record.ofCell c) : c'.compile.failure? = c.compile.failure? := by
  have hinputs : c'.inputs = c.inputs := congrArg Record.inputs h
  apply Option.ext
  intro e
  rw [hc'.failure?_compile_iff, hc.failure?_compile_iff, Cell.rule_of_record h, hinputs]

/-- What is reported of a cell whose last compilation failed. -/
def Cell.diagnostic? (c : Cell) : Option Diagnostic := c.failure?.map fun error => ⟨c.id, c.name, error⟩

namespace Graph

/-- Two graphs that have the same root, members and edges, all in the same order. -/
structure SameShape (g k : Graph) : Prop where
  root : k.root = g.root
  ids : k.ids = g.ids
  targets : ∀ id, k.targets id = g.targets id

/-- Two graphs of the same shape whose cells have the same configurations. -/
structure Alike (g k : Graph) : Prop extends SameShape g k where
  record : ∀ id, (k.cell? id).map Record.ofCell = (g.cell? id).map Record.ofCell

namespace SameShape

variable {g k : Graph}

theorem targetLists (h : g.SameShape k) : k.store.targetLists = g.store.targetLists :=
  Store.targetLists_ext h.ids fun id _ => h.targets id

theorem order (h : g.SameShape k) : k.order = g.order := by
  have hids : k.store.ids = g.store.ids := h.ids
  simp only [Graph.order, Store.sort, Store.sortWith, Store.targetsTable, Store.indegrees, hids, h.targetLists]

theorem schedule (h : g.SameShape k) : k.store.schedule k.root = g.store.schedule g.root := by
  have hids : k.store.ids = g.store.ids := h.ids
  have horder : k.store.sort = g.store.sort := h.order
  simp only [Store.schedule, Store.contributing, Store.idle, Store.sourcesTable, Store.outdegrees, hids, horder,
    h.targetLists, h.root]

/-- The document of a graph of the same shape whose records are those of the other one, changed in some way. -/
theorem document (h : g.SameShape k) {f : Record → Record}
    (hrecord : ∀ id, (k.cell? id).map Record.ofCell = (g.cell? id).map fun c => f (.ofCell c)) :
    k.document = { g.document with nodes := g.document.nodes.map f } := by
  have hedges : k.ids.map (fun id => (id, k.targets id)) = g.ids.map fun id => (id, g.targets id) := by
    rw [h.ids]
    exact List.map_congr_left fun id _ => by rw [h.targets]
  have hnodes : (k.order.filterMap k.cell?).map Record.ofCell =
      ((g.order.filterMap g.cell?).map Record.ofCell).map f := by
    rw [List.map_map, List.map_filterMap, List.map_filterMap, h.order]
    exact List.filterMap_congr fun id _ => hrecord id
  rw [Graph.document, hedges, hnodes, Graph.document]

end SameShape

namespace Alike

variable {g k : Graph}

theorem inputs (h : g.Alike k) (id : NodeId) : k.inputs id = g.inputs id := by
  have hinputs : ∀ g : Graph, g.inputs id = (((g.cell? id).map Record.ofCell).map Record.inputs).getD [] := by
    intro g
    rw [Graph.inputs, Store.inputs, Graph.cell?]
    rcases g.store.cell? id with _ | c <;> rfl
  rw [hinputs, h.record, hinputs]

theorem document (h : g.Alike k) : k.document = g.document := by
  have hdocument := h.toSameShape.document (f := id) h.record
  rwa [List.map_id] at hdocument

end Alike

/-! ### Evaluating -/

/-- Every cell that is not stale has the program of its present configuration. -/
def UpToDate (g : Graph) : Prop := ∀ id c, g.cell? id = some c → c.UpToDate

theorem Reachable.upToDate {g : Graph} (hg : g.Reachable) : g.UpToDate := fun _ _ hc => (hg.cell hc).upToDate

/-- Two stores whose cells have the same records and are up to date, each in its own way. -/
private structure Matching (s t : Store) : Prop where
  record : ∀ id, (t.cell? id).map Record.ofCell = (s.cell? id).map Record.ofCell
  upToDate : ∀ id c, s.cell? id = some c ∨ t.cell? id = some c → c.UpToDate

/-- Matching stores record the same outcome of a cell and match afterwards. -/
private theorem Matching.evaluateNext {s t : Store} (h : Matching s t) (l : Ledger) (id : NodeId) :
    (t.evaluateNext l id).1 = (s.evaluateNext l id).1 ∧ Matching (s.evaluateNext l id).2 (t.evaluateNext l id).2 := by
  have hrecord := h.record id
  rcases hs : s.cell? id with _ | c
  · rw [hs, Option.map_none, Option.map_eq_none_iff] at hrecord
    simp only [Store.evaluateNext, hs, hrecord, h, and_self]
  · rw [hs] at hrecord
    obtain ⟨d, ht, hsame⟩ := Option.map_eq_some_iff.1 hrecord
    have hc : c.UpToDate := h.upToDate id c (Or.inl hs)
    have hd : d.UpToDate := h.upToDate id d (Or.inr ht)
    have hinputs : d.inputs = c.inputs := congrArg Record.inputs hsame
    constructor
    · simp only [Store.evaluateNext, hs, ht, hc.fst_evaluate, hd.fst_evaluate, Cell.outcome_of_record hsame, hinputs]
    · rw [Store.snd_evaluateNext l hs, Store.snd_evaluateNext l ht]
      refine ⟨fun i => ?_, fun i e he => ?_⟩
      · rw [Store.cell?_modify, Store.cell?_modify]
        by_cases hi : i = id
        · rw [if_pos hi, if_pos hi, hi, hs, ht]
          exact congrArg some (hd.ofCell_compile.trans (hsame.trans hc.ofCell_compile.symm))
        · rw [if_neg hi, if_neg hi, h.record]
      · rw [Store.cell?_modify, Store.cell?_modify] at he
        by_cases hi : i = id
        · rw [if_pos hi, if_pos hi, hi, hs, ht] at he
          rcases he with he | he
          · exact Option.some.inj he ▸ hc.compile
          · exact Option.some.inj he ▸ hd.compile
        · rw [if_neg hi, if_neg hi] at he
          exact h.upToDate i e he

private theorem Matching.evaluateAll {s t : Store} (h : Matching s t) (ids : List NodeId) (l : Ledger) :
    (ids.foldl (fun p id => Store.evaluateNext p.1 p.2 id) (l, t)).1 =
      (ids.foldl (fun p id => Store.evaluateNext p.1 p.2 id) (l, s)).1 := by
  induction ids generalizing s t l with
  | nil => rfl
  | cons id ids ih =>
    obtain ⟨hledger, hnext⟩ := h.evaluateNext l id
    have hstart : t.evaluateNext l id = ((s.evaluateNext l id).1, (t.evaluateNext l id).2) := by rw [← hledger]
    rw [List.foldl_cons, List.foldl_cons, hstart]
    exact ih hnext _

/-- Graphs that are alike have the same ledger. -/
theorem Alike.evaluate {g k : Graph} (h : g.Alike k) (hg : g.UpToDate) (hk : k.UpToDate) :
    k.evaluate.1 = g.evaluate.1 := by
  have hmatch : Matching g.store k.store := ⟨h.record, fun id c hc => hc.elim (hg id c) (hk id c)⟩
  show (k.store.evaluate k.root).1 = (g.store.evaluate g.root).1
  rw [Store.evaluate, h.schedule, Store.evaluate]
  exact hmatch.evaluateAll _ _

/-- The diagnostics of a graph are the reports of its cells. -/
theorem fst_diagnostics (g : Graph) :
    g.diagnostics.1 = g.ids.filterMap fun id => (g.cell? id).bind fun c => c.compile.diagnostic? := by
  rw [Graph.diagnostics]
  refine (Store.filterMap_entries (g.store.map Cell.compile) Cell.diagnostic?).trans ?_
  rw [Store.ids_map]
  apply List.filterMap_congr
  intro id _
  rw [Store.cell?_map, Option.bind_map]
  rfl

/-- Graphs that are alike have the same diagnostics. -/
theorem Alike.diagnostics {g k : Graph} (h : g.Alike k) (hg : g.UpToDate) (hk : k.UpToDate) :
    k.diagnostics.1 = g.diagnostics.1 := by
  rw [fst_diagnostics, fst_diagnostics, h.ids]
  apply List.filterMap_congr
  intro id _
  have hrecord := h.record id
  rcases hc : g.cell? id with _ | c
  · rw [hc, Option.map_none, Option.map_eq_none_iff] at hrecord
    rw [hrecord]
  · rw [hc] at hrecord
    obtain ⟨d, hd, hsame⟩ := Option.map_eq_some_iff.1 hrecord
    have hcell := hg id c hc
    have hcell' := hk id d hd
    have hcompile := hcell'.ofCell_compile.trans (hsame.trans hcell.ofCell_compile.symm)
    have hid : d.compile.id = c.compile.id := congrArg Record.id hcompile
    have hname : d.compile.name = c.compile.name := congrArg Record.name hcompile
    simp only [hd, Option.bind_some, Cell.diagnostic?, hid, hname, hcell.failure?_compile_of_record hcell' hsame]

theorem Reachable.evaluate_of_alike {g k : Graph} (hg : g.Reachable) (hk : k.Reachable) (h : g.Alike k) :
    k.evaluate.1 = g.evaluate.1 := h.evaluate hg.upToDate hk.upToDate

theorem Reachable.diagnostics_of_alike {g k : Graph} (hg : g.Reachable) (hk : k.Reachable) (h : g.Alike k) :
    k.diagnostics.1 = g.diagnostics.1 := h.diagnostics hg.upToDate hk.upToDate

end Graph

end CellGraph
