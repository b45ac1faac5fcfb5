import CellGraph.Proofs.Graph.Reachable
import CellGraph.Proofs.Store.WellFormed

/-!
# Well-formed graphs

A graph is well-formed if its store is and its root is the first member, feeds nothing and has at most one input.
Every change keeps a graph well-formed (`kept_wellFormed`), so every reachable graph is (`Reachable.wellFormed`), and
its order has all members.
-/

namespace CellGraph

open Relation (TransGen)

namespace Store

/-- A store that has no edge yet. -/
structure Edgeless (s : Store) : Prop where
  own_id : ∀ id c, s.cell? id = some c → c.id = id
  targets : ∀ id, s.targets id = []
  inputs : ∀ id, s.inputs id = []
  below_nextId : ∀ id ∈ s.ids, id.val.toNat < s.nextId

theorem edgeless_empty : empty.Edgeless where
  own_id _ _ hc := absurd (mem_ids_iff.2 ⟨_, hc⟩) List.not_mem_nil
  targets _ := rfl
  inputs _ := rfl
  below_nextId _ hid := absurd hid List.not_mem_nil

/-- A cell has no edge when it comes in, also if its id was there. -/
theorem Edgeless.insert {s : Store} (h : s.Edgeless) (c : Cell) : (s.insert c).Edgeless := by
  refine ⟨fun id => own_id_insert (h.own_id id) c, ?_, ?_, below_nextId_insert h.below_nextId c⟩
  · intro id
    rw [targets_insert, h.targets, ite_self]
  · intro id
    rw [inputs_insert, h.inputs, ite_self]

theorem Edgeless.wellFormed {s : Store} (h : s.Edgeless) : s.WellFormed := by
  refine ⟨h.own_id, ?_, ?_, ?_, ?_, h.below_nextId⟩
  · intro a b
    simp [h.targets, h.inputs]
  · intro id
    rw [h.targets]
    exact List.nodup_nil
  · intro id
    rw [h.inputs]
    exact List.nodup_nil
  · intro id hcycle
    obtain ⟨b, hb, -⟩ := TransGen.head'_iff.1 hcycle
    rw [h.targets] at hb
    exact absurd hb List.not_mem_nil

end Store

namespace Graph

/-- A graph in the shape that `Graph.connect` keeps. -/
structure WellFormed (g : Graph) : Prop where
  store : g.store.WellFormed
  root_first : g.ids.head? = some g.root
  root_targets : g.targets g.root = []
  root_inputs : (g.inputs g.root).length ≤ 1

namespace WellFormed

variable {g : Graph}

theorem root_mem (hg : g.WellFormed) : g.root ∈ g.ids := List.mem_of_head? hg.root_first

/-! ### Changes of the store -/

theorem of_sameEdges (hg : g.WellFormed) {s : Store} (h : g.store.SameEdges s) :
    ({ g with store := s }).WellFormed := by
  refine ⟨hg.store.of_sameEdges h, ?_, ?_, ?_⟩
  · rw [ids, h.ids]
    exact hg.root_first
  · rw [targets, h.targets]
    exact hg.root_targets
  · rw [inputs, (h.inputs _).length_eq]
    exact hg.root_inputs

theorem insert (hg : g.WellFormed) {c : Cell} (hc : c.id ∉ g.ids) :
    ({ g with store := g.store.insert c }).WellFormed := by
  have hne : g.root ≠ c.id := fun he => hc (he ▸ hg.root_mem)
  refine ⟨hg.store.insert hc, ?_, ?_, ?_⟩
  · have hfirst : g.store.ids.head? = some g.root := hg.root_first
    rw [ids, Store.ids_insert hc, List.head?_append, hfirst]
    rfl
  · rw [targets, Store.targets_insert, if_neg hne]
    exact hg.root_targets
  · rw [inputs, Store.inputs_insert, if_neg hne]
    exact hg.root_inputs

theorem detach (hg : g.WellFormed) {id : NodeId} (hid : id ≠ g.root) :
    ({ g with store := g.store.detach id }).WellFormed := by
  refine ⟨hg.store.detach id, ?_, ?_, ?_⟩
  · rw [ids, Store.ids_detach]
    obtain ⟨rest, hrest⟩ := List.head?_eq_some_iff.1 hg.root_first
    rw [← ids, hrest, List.filter_cons_of_pos (by simpa using hid.symm)]
    rfl
  · rw [targets, (hg.store.views_detach id g.root).1, if_neg hid.symm, ← targets, hg.root_targets]
    rfl
  · rw [inputs, (hg.store.views_detach id g.root).2, if_neg hid.symm]
    exact (List.length_filter_le _ _).trans hg.root_inputs

theorem connect (hg : g.WellFormed) (a b : NodeId) : (g.connect a b).WellFormed := by
  unfold Graph.connect
  split
  · rename_i hcan
    obtain ⟨ha, hmem, hmem', hfree, hnew, hcomplete⟩ := canConnect_iff.1 hcan
    have hextra : ∀ e ∈ some (a, b), e.1 ∈ g.store.ids := by
      rintro e ⟨⟩
      exact hmem
    have hacyclic := (Store.isComplete_sortWith_iff hextra).1 hcomplete
    refine ⟨hg.store.link hmem hmem' hnew hacyclic, ?_, ?_, ?_⟩
    · rw [ids, Store.ids_link]
      exact hg.root_first
    · rw [targets, Store.targets_link_of_mem hmem, if_neg ha.symm]
      exact hg.root_targets
    · rw [inputs, Store.inputs_link_of_mem hmem']
      split
      · rename_i hroot
        rw [← inputs, hfree hroot.symm]
        exact Nat.le_refl 1
      · exact hg.root_inputs
  · exact hg

theorem disconnect (hg : g.WellFormed) (a b : NodeId) : (g.disconnect a b).WellFormed := by
  by_cases hedge : b ∈ g.store.targets a
  · refine ⟨hg.store.unlink a b, ?_, ?_, ?_⟩
    · rw [ids, Graph.disconnect, Store.ids_unlink]
      exact hg.root_first
    · have hroot : g.root ≠ a := by
        rintro rfl
        rw [← targets, hg.root_targets] at hedge
        exact absurd hedge List.not_mem_nil
      rw [targets, Graph.disconnect, Store.targets_unlink, if_neg hroot]
      exact hg.root_targets
    · rw [inputs, Graph.disconnect, Store.inputs_unlink hedge]
      split
      · exact List.length_erase_le.trans hg.root_inputs
      · exact hg.root_inputs
  · rw [Graph.disconnect, Store.unlink_of_not_mem hedge]
    exact hg

end WellFormed

theorem wellFormed_ofConfig (config : Config) : (ofConfig config).WellFormed := by
  have hedgeless : (Store.empty.insert (.bare ⟨0⟩ config.rootName)).Edgeless := Store.edgeless_empty.insert _
  have hcreated : (⟨Store.empty.insert (.bare ⟨0⟩ config.rootName), ⟨0⟩, config⟩ : Graph).WellFormed := by
    refine ⟨hedgeless.wellFormed, ?_, hedgeless.targets _, ?_⟩
    · rw [ids, Store.ids_insert List.not_mem_nil]
      rfl
    · rw [inputs, hedgeless.inputs]
      exact Nat.zero_le 1
  exact hcreated.of_sameEdges (Store.sameEdges_modify fun _ _ => ⟨rfl, List.Perm.refl _⟩)

/-! ### Restoring -/

/-- The cells of a document have no edges before they are connected, and that of the first id is the first. -/
private theorem edgeless_insertCells {root : NodeId} {ids : List NodeId} {rs rest : List Record} {s : Store}
    (h : Document.insertCells (root :: ids) rs .empty = .ok (s, rest)) : s.Edgeless ∧ s.ids.head? = some root := by
  unfold Document.insertCells at h
  split at h
  · simp at h
  · rename_i r hr
    split at h
    · rename_i t rest' hrest
      obtain ⟨rfl, -⟩ := Prod.mk.inj (Except.ok.inj h)
      have hroot : r.toCell.id = root := (r.id_toCell).trans (by simpa using List.find?_some hr)
      refine Document.insertCells_keeps (P := fun s => s.Edgeless ∧ s.ids.head? = some root) ?_ ⟨?_, ?_⟩ hrest
      · rintro s r ⟨hs, hfirst⟩
        refine ⟨hs.insert _, ?_⟩
        by_cases hmem : r.toCell.id ∈ s.ids
        · rw [Store.ids_insert_of_mem hmem]
          exact hfirst
        · rw [Store.ids_insert hmem, List.head?_append, hfirst]
          rfl
      · exact Store.edgeless_empty.insert _
      · rw [Store.ids_insert List.not_mem_nil, hroot]
        rfl
    · simp at h

theorem wellFormed_toGraph {config : Config} {d : Document} {h : Graph} (hgraph : d.toGraph config = .ok h) :
    h.WellFormed := by
  obtain ⟨root, ts, edges, store, records, g, hedges, -, hinsert, hconnect, horder⟩ := Document.toGraph_eq_ok hgraph
  rw [hedges] at hinsert
  obtain ⟨hedgeless, hfirst⟩ := edgeless_insertCells hinsert
  have hstore : (⟨store, root, config⟩ : Graph).WellFormed := by
    refine ⟨hedgeless.wellFormed, hfirst, hedgeless.targets _, ?_⟩
    rw [inputs, hedgeless.inputs]
    exact Nat.zero_le 1
  have hg : g.WellFormed := Document.connectAll_keeps (P := WellFormed) (fun _ a b hg => hg.connect a b) hstore hconnect
  refine Document.orderInputs_keeps (P := WellFormed) ?_ hg horder
  intro g r hg hperm
  refine hg.of_sameEdges (Store.sameEdges_modify fun c hc => ⟨rfl, ?_⟩)
  rwa [inputs, Store.inputs_of_cell? hc] at hperm

/-! ### Calls -/

theorem kept_wellFormed : Kept WellFormed where
  create _ hg hid := hg.insert (Store.not_mem_ids_of_freshId? hg.store.below_nextId hid)
  insert hg _ hc := hg.insert hc
  detach hg hid := hg.detach hid
  connect source target hg := hg.connect source target
  disconnect source target hg := hg.disconnect source target
  modify hg hf := hg.of_sameEdges (Store.sameEdges_modify fun c hc => ⟨(hf c hc).id, .of_eq (hf c hc).inputs⟩)
  map hg hf := hg.of_sameEdges (Store.sameEdges_map fun c => ⟨(hf c).id, (hf c).inputs⟩)
  toGraph hgraph := wellFormed_toGraph hgraph

/-- Every graph that can come about is well-formed. -/
theorem Reachable.wellFormed {g : Graph} (hg : g.Reachable) : g.WellFormed :=
  kept_wellFormed.reachable wellFormed_ofConfig hg

/-- The order of a well-formed graph has all members. -/
theorem WellFormed.length_order {g : Graph} (hg : g.WellFormed) : g.order.length = g.size := by
  have hcomplete : g.store.isComplete (g.store.sortWith none) = true :=
    (Store.isComplete_sortWith_iff (by simp)).2 hg.store.acyclic
  exact beq_iff_eq.1 hcomplete

/-- In a reachable graph cells and target lists have the same ids in the same order, the graph is well-formed, every
edge is between members, and the order has all of them. -/
theorem Reachable.consistent {g : Graph} (hg : g.Reachable) :
    g.store.targetLists.ids = g.store.cells.ids ∧ g.WellFormed ∧
      (∀ a b, b ∈ g.targets a → a ∈ g.ids ∧ b ∈ g.ids) ∧ (∀ a b, a ∈ g.inputs b → a ∈ g.ids ∧ b ∈ g.ids) ∧
      g.order.length = g.size := by
  have hwell := hg.wellFormed
  refine ⟨g.store.ids_targetLists, hwell, ?_, ?_, hwell.length_order⟩
  · exact fun a b hab => hwell.store.mem_ids_of_edge hab
  · exact fun a b hab => hwell.store.mem_ids_of_edge ((hwell.store.mirror a b).2 hab)

/-- A graph with two more cells, one of which was made outside of it. -/
theorem consistent_of_added :
    let g := initial.applyAll [.create "a", .add (.bare ⟨7⟩ "b"), .connect ⟨1⟩ ⟨0⟩]
    g.store.targetLists.ids = g.store.cells.ids ∧ g.WellFormed ∧
      (∀ a b, b ∈ g.targets a → a ∈ g.ids ∧ b ∈ g.ids) ∧ (∀ a b, a ∈ g.inputs b → a ∈ g.ids ∧ b ∈ g.ids) ∧
      g.order.length = g.size := by
  intro g
  have hg : g.Reachable := by
    refine (Reachable.new .standard).applyAll ?_
    simp only [List.mem_cons, List.not_mem_nil, or_false]
    rintro call (rfl | rfl | rfl) c hc
    · nomatch hc
    · exact Call.add.inj hc ▸ .bare ⟨7⟩ "b"
    · nomatch hc
  exact Reachable.consistent (g := g) hg

end Graph

end CellGraph
