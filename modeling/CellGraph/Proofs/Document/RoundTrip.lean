import CellGraph.Proofs.Document.Restore
import CellGraph.Proofs.Graph.Alike
import CellGraph.Proofs.Store.Schedule

/-!
# Documents of graphs

The document of a well-formed graph is valid, and what it describes is a graph with the same root, members, edges and
configurations (`Alike`).  So a graph that is restored from the document of another one cannot be told from it but by
its options (`Reachable.restore_document`).
-/

namespace CellGraph

open Relation (TransGen)

namespace Graph

/-! ### The document of a well-formed graph -/

theorem ids_edges_document (g : Graph) : g.document.edges.map (·.1) = g.ids := by
  rw [Graph.document, List.map_map]
  exact List.map_id _

namespace WellFormed

variable {g : Graph}

theorem feeds_document (hg : g.WellFormed) {a b : NodeId} : g.document.Feeds a b ↔ b ∈ g.targets a := by
  constructor
  · rintro ⟨e, he, rfl, hb⟩
    obtain ⟨id, -, rfl⟩ := List.mem_map.1 he
    exact hb
  · intro hb
    have ha : a ∈ g.ids := (hg.store.mem_ids_of_edge hb).1
    exact ⟨(a, g.targets a), List.mem_map_of_mem ha, rfl, hb⟩

theorem mem_order_iff (hg : g.WellFormed) {id : NodeId} : id ∈ g.order ↔ id ∈ g.ids := hg.store.mem_sort_iff

/-- The records of a document are those of the cells, under their ids. -/
theorem mem_nodes_document (hg : g.WellFormed) {r : Record} :
    r ∈ g.document.nodes ↔ ∃ c, g.cell? r.id = some c ∧ r = .ofCell c := by
  constructor
  · intro hr
    obtain ⟨c, hc, rfl⟩ := List.mem_map.1 hr
    obtain ⟨id, -, hid⟩ := List.mem_filterMap.1 hc
    obtain rfl : c.id = id := hg.store.own_id id c hid
    exact ⟨c, hid, rfl⟩
  · rintro ⟨c, hc, hr⟩
    have hmem : r.id ∈ g.order := hg.mem_order_iff.2 (Store.mem_ids_iff.2 ⟨c, hc⟩)
    rw [hr]
    exact List.mem_map_of_mem (List.mem_filterMap.2 ⟨r.id, hmem, hc⟩)

theorem ids_nodes_document (hg : g.WellFormed) : g.document.nodes.map (·.id) = g.order := by
  have hid : ∀ id ∈ g.order, (g.cell? id).map ((·.id) ∘ Record.ofCell) = some id := by
    intro id hid
    obtain ⟨c, hc⟩ := Store.mem_ids_iff.1 (hg.mem_order_iff.1 hid)
    have hown : c.id = id := hg.store.own_id id c hc
    rw [Graph.cell?, hc]
    exact congrArg some hown
  rw [Graph.document, List.map_map, List.map_filterMap, List.filterMap_congr hid]
  exact List.filterMap_some

theorem valid_document (hg : g.WellFormed) : g.document.Valid := by
  have hids := ids_edges_document g
  have hrecords := hg.ids_nodes_document
  refine ⟨?_, ?_, fun id => ?_, fun a b hab => ?_, ?_, fun c hcycle => ?_, fun r hr => ?_⟩
  · rw [hrecords]
    exact Store.WellFormed.nodup_sort g.store
  · rw [hids]
    exact g.store.nodup_ids
  · rw [hids, hrecords, hg.mem_order_iff]
  · rw [hids]
    exact (hg.store.mem_ids_of_edge (hg.feeds_document.1 hab)).2
  · obtain ⟨rest, hrest⟩ := List.head?_eq_some_iff.1 hg.root_first
    refine ⟨g.root, rest.map fun id => (id, g.targets id), ?_, fun a b ha hb => ?_⟩
    · rw [Graph.document, hrest, List.map_cons, hg.root_targets]
    · have hainput := (hg.store.mirror a g.root).1 (hg.feeds_document.1 ha)
      have hbinput := (hg.store.mirror b g.root).1 (hg.feeds_document.1 hb)
      have hone : (g.store.inputs g.root).length ≤ 1 := hg.root_inputs
      rcases hinputs : g.store.inputs g.root with _ | ⟨i, _ | ⟨j, is⟩⟩
      · rw [hinputs] at hainput
        exact absurd hainput List.not_mem_nil
      · rw [hinputs, List.mem_singleton] at hainput hbinput
        rw [hainput, hbinput]
      · rw [hinputs] at hone
        simp at hone
  · exact hg.store.acyclic c (TransGen.mono (fun _ _ => hg.feeds_document.1) _ _ hcycle)
  · obtain ⟨c, hc, hrecord⟩ := hg.mem_nodes_document.1 hr
    have hinputs : g.store.inputs r.id = r.inputs := by
      rw [Store.inputs_of_cell? hc, hrecord]
      rfl
    rw [← hinputs]
    refine ⟨hg.store.nodup_inputs r.id, fun id => ?_⟩
    rw [← hg.store.mirror, hg.feeds_document]
    rfl

end WellFormed

/-- A list without duplicates has none to be erased. -/
theorem eraseDups_of_nodup {ids : List NodeId} (h : ids.Nodup) : ids.eraseDups = ids := by
  induction ids with
  | nil => rfl
  | cons id ids ih =>
    rw [List.nodup_cons] at h
    have hkeep : ids.filter (fun b => !b == id) = ids := by
      rw [List.filter_eq_self]
      intro i hi
      have hne : i ≠ id := fun he => h.1 (he ▸ hi)
      simpa using hne
    rw [List.eraseDups_cons, hkeep, ih h.2]

namespace WellFormed

variable {g k : Graph} {d : Document} {config : Config}

/-- A document with the edges of a well-formed graph describes a graph of the same shape. -/
theorem sameShape_of_describes (hg : g.WellFormed) (hedges : d.edges = g.document.edges) (h : d.Describes config k) :
    g.SameShape k := by
  have hids : k.ids = g.ids := h.ids.trans (hedges ▸ ids_edges_document g)
  refine ⟨?_, hids, fun id => ?_⟩
  · have hfirst := h.root
    rw [hids, hg.root_first] at hfirst
    exact (Option.some.inj hfirst).symm
  · by_cases hid : id ∈ g.ids
    · have hentry : (id, g.targets id) ∈ d.edges := hedges ▸ List.mem_map_of_mem hid
      exact (h.targets _ hentry).trans (eraseDups_of_nodup (hg.store.nodup_targets id))
    · have hid' : id ∉ k.ids := by rwa [hids]
      rw [Graph.targets, Store.targets_of_not_mem hid', Graph.targets, Store.targets_of_not_mem hid]

/-- A document with the records of a well-formed graph, changed in some way, describes cells with those records. -/
theorem record_of_describes (hg : g.WellFormed) {f : Record → Record} (hid : ∀ r, (f r).id = r.id)
    (hedges : d.edges = g.document.edges) (hnodes : d.nodes = g.document.nodes.map f) (h : d.Describes config k)
    (id : NodeId) : (k.cell? id).map Record.ofCell =
      (g.cell? id).map fun c => { f (.ofCell c) with table := (f (.ofCell c)).rule.table } := by
  rcases hc : g.cell? id with _ | c
  · have hmem : id ∉ k.ids := by
      rw [(hg.sameShape_of_describes hedges h).ids]
      exact Store.cell?_eq_none.1 hc
    rw [Graph.cell?, Store.cell?_eq_none.2 hmem, Option.map_none, Option.map_none]
  · obtain rfl : c.id = id := hg.store.own_id id c hc
    have hrecord : f (.ofCell c) ∈ d.nodes := hnodes ▸ List.mem_map_of_mem (hg.mem_nodes_document.2 ⟨c, hc, rfl⟩)
    have hcell := h.cell _ hrecord
    rw [hid] at hcell
    have hown : (Record.ofCell c).id = c.id := rfl
    rw [← hown, hcell, Option.map_some, Record.ofCell_toCell, Option.map_some]

end WellFormed

/-- What the document of a reachable graph describes is like that graph. -/
theorem Reachable.alike_of_describes {g k : Graph} {config : Config} (hg : g.Reachable)
    (h : g.document.Describes config k) : g.Alike k := by
  refine ⟨hg.wellFormed.sameShape_of_describes rfl h, fun id => ?_⟩
  rw [hg.wellFormed.record_of_describes (f := fun r => r) (fun _ => rfl) rfl (List.map_id _).symm h id]
  rcases hc : g.cell? id with _ | c
  · rfl
  · have hrule := Record.rule_ofCell (hg.cell hc).table_wellFormed
    rw [Option.map_some, hrule, Option.map_some]
    rfl

/-- A graph restores the document of every reachable one.  It then is like that one in its root, its members, its edges
and the configurations of its cells, has the same document and the same ledger, and keeps its own options. -/
theorem Reachable.restore_document {g h : Graph} (hg : g.Reachable) (hh : h.Reachable) :
    ∃ k, h.restore g.document = .ok k ∧ k.root = g.root ∧ k.ids = g.ids ∧ (∀ id, k.targets id = g.targets id) ∧
      (∀ id, k.inputs id = g.inputs id) ∧ (∀ id, (k.cell? id).map Record.ofCell = (g.cell? id).map Record.ofCell) ∧
      k.document = g.document ∧ k.evaluate.1 = g.evaluate.1 ∧ k.config = h.config := by
  obtain ⟨k, hgraph⟩ := hg.wellFormed.valid_document.toGraph h.config
  have hrestore : h.restore g.document = .ok k := (h.restore_eq _).trans hgraph
  have hk : k.Reachable := by
    have hcall := hh.call (.restore g.document) (fun _ hc => nomatch hc)
    rwa [Call.apply_restore, hrestore] at hcall
  have hdescribes := Document.describes_of_toGraph hgraph
  have halike := hg.alike_of_describes hdescribes
  exact ⟨k, hrestore, halike.root, halike.ids, halike.targets, halike.inputs, halike.record, halike.document,
    hg.evaluate_of_alike hk halike, hdescribes.config⟩

/-- A graph with a constant that feeds the root is restored in a new graph with other options. -/
theorem restore_document_of_connected :
    let g := initial.applyAll [.create "a", .onCell ⟨1⟩ (.setFormula (.number 2)), .connect ⟨1⟩ ⟨0⟩]
    let h := ofConfig { Config.standard with prettyDump := true }
    ∃ k, h.restore g.document = .ok k ∧ k.document = g.document ∧ k.evaluate.1 = g.evaluate.1 := by
  intro g h
  have hg : g.Reachable := by
    refine (Reachable.new .standard).applyAll ?_
    simp only [List.mem_cons, List.not_mem_nil, or_false]
    rintro call (rfl | rfl | rfl) c hc
    · nomatch hc
    · nomatch hc
    · nomatch hc
  obtain ⟨k, hrestore, -, -, -, -, -, hdocument, hledger, -⟩ := Reachable.restore_document (h := h) hg (.new _)
  exact ⟨k, hrestore, hdocument, hledger⟩

end Graph

end CellGraph
