import CellGraph.Proofs.Store.Mirror

/-!
# Well-formed stores

In a well-formed store each cell is under its own id, the inputs of cells mirror the targets, no edge is there twice,
no cycle is closed and the number for the next id is above all ids.  A new cell, a new edge that closes no cycle, the
end of an edge and the removal of a cell keep a store well-formed, and so does every change that keeps the edges
(`SameEdges`).
-/

namespace CellGraph.Store

open Relation (TransGen)

/-- A store in which both sides of every edge are recorded once and no cycle is closed. -/
structure WellFormed (s : Store) : Prop where
  own_id : ∀ id c, s.cell? id = some c → c.id = id
  mirror : ∀ a b, b ∈ s.targets a ↔ a ∈ s.inputs b
  nodup_targets : ∀ id, (s.targets id).Nodup
  nodup_inputs : ∀ id, (s.inputs id).Nodup
  acyclic : ∀ id, ¬ TransGen (fun a b => b ∈ s.targets a) id id
  below_nextId : ∀ id ∈ s.ids, id.val.toNat < s.nextId

/-- A store with a new edge has the targets with which the test for the edge sorts it. -/
theorem targets_link_eq_targetsWith {s : Store} {a : NodeId} (ha : a ∈ s.ids) (b i : NodeId) :
    (s.link a b).targets i = s.targetsWith (some (a, b)) i := by
  rw [targets_link_of_mem ha, targetsWith]
  by_cases hi : i = a
  · rw [if_pos hi, if_pos (by simpa using hi.symm)]
  · rw [if_neg hi, if_neg (by simpa using Ne.symm hi)]

namespace WellFormed

variable {s : Store}

theorem mem_ids_of_edge (h : s.WellFormed) {a b : NodeId} (hab : b ∈ s.targets a) : a ∈ s.ids ∧ b ∈ s.ids :=
  ⟨mem_ids_of_mem_targets hab, mem_ids_of_mem_inputs ((h.mirror a b).1 hab)⟩

/-- Every id of a well-formed store is in line. -/
theorem inLine (h : s.WellFormed) (b : NodeId) : s.InLine b := ⟨h.own_id b, fun a => h.mirror a b, h.nodup_inputs b⟩

/-- A store whose ids are in line, with some of the targets of a well-formed one. -/
private theorem of_sublist (h : s.WellFormed) {t : Store} (hline : ∀ b, t.InLine b)
    (htargets : ∀ a, (t.targets a).Sublist (s.targets a)) (hbelow : ∀ id ∈ t.ids, id.val.toNat < t.nextId) :
    t.WellFormed where
  own_id id := (hline id).own_id
  mirror a b := (hline b).mirror a
  nodup_targets id := (htargets id).nodup (h.nodup_targets id)
  nodup_inputs id := (hline id).nodup_inputs
  acyclic id hcycle := h.acyclic id (TransGen.mono (fun a _ hab => (htargets a).subset hab) _ _ hcycle)
  below_nextId := hbelow

/-- A new cell leaves the edges as they are. -/
theorem insert (h : s.WellFormed) {c : Cell} (hc : c.id ∉ s.ids) : (s.insert c).WellFormed := by
  refine h.of_sublist (fun b => (h.inLine b).insert hc) (fun a => ?_) (below_nextId_insert h.below_nextId c)
  rw [targets_insert_of_not_mem hc]

/-- A new edge between members that closes no cycle. -/
theorem link (h : s.WellFormed) {a b : NodeId} (ha : a ∈ s.ids) (hb : b ∈ s.ids) (hnew : b ∉ s.targets a)
    (hacyclic : ∀ c, ¬ TransGen (fun x y => y ∈ s.targetsWith (some (a, b)) x) c c) : (s.link a b).WellFormed where
  own_id id := ((h.inLine id).link ha hb hnew).own_id
  mirror x y := ((h.inLine y).link ha hb hnew).mirror x
  nodup_targets := nodup_targets_link h.nodup_targets ha hnew
  nodup_inputs id := ((h.inLine id).link ha hb hnew).nodup_inputs
  acyclic := by
    simp only [targets_link_eq_targetsWith ha]
    exact hacyclic
  below_nextId := by
    rw [ids_link]
    exact h.below_nextId

/-- What is left when an edge ends. -/
theorem views_unlink (h : s.WellFormed) (a b i : NodeId) :
    (s.unlink a b).targets i = (s.targets i).filter (fun t => !(i == a && t == b)) ∧
      (s.unlink a b).inputs i = (s.inputs i).filter (fun j => !(j == a && i == b)) := by
  refine ⟨?_, (h.inLine i).inputs_unlink a b⟩
  rw [targets_unlink, (h.nodup_targets i).erase_eq_filter]
  by_cases hi : i = a
  · simp [hi, bne]
  · simp [hi, beq_false_of_ne hi]

theorem unlink (h : s.WellFormed) (a b : NodeId) : (s.unlink a b).WellFormed := by
  refine h.of_sublist (fun i => (h.inLine i).unlink (h.nodup_targets a)) (sublist_targets_unlink a b) fun id hid => ?_
  rw [ids_unlink] at hid
  rw [nextId_unlink]
  exact h.below_nextId id hid

/-- What is left of the other cells when one is taken out. -/
theorem views_detach (h : s.WellFormed) (id i : NodeId) :
    (s.detach id).targets i = (if i = id then [] else (s.targets i).filter (· != id)) ∧
      (s.detach id).inputs i = if i = id then [] else (s.inputs i).filter (· != id) :=
  ⟨(h.inLine id).targets_detach i, (h.inLine i).inputs_detach (h.nodup_targets id)⟩

theorem detach (h : s.WellFormed) (id : NodeId) : (s.detach id).WellFormed := by
  refine h.of_sublist (fun b => (h.inLine b).detach (h.nodup_targets id)) (sublist_targets_detach id) fun i hi => ?_
  rw [ids_detach] at hi
  rw [nextId_detach]
  exact h.below_nextId i (List.mem_filter.1 hi).1

end WellFormed

/-! ### Changes that keep the edges -/

/-- A store with the same ids, edges and number for the next id.  The inputs of a cell can be in another order. -/
structure SameEdges (s t : Store) : Prop where
  ids : t.ids = s.ids
  targets : ∀ id, t.targets id = s.targets id
  inputs : ∀ id, (t.inputs id).Perm (s.inputs id)
  own_id : ∀ id c, t.cell? id = some c → ∃ d, s.cell? id = some d ∧ c.id = d.id
  nextId : t.nextId = s.nextId

theorem SameEdges.refl (s : Store) : s.SameEdges s :=
  ⟨rfl, fun _ => rfl, fun _ => List.Perm.refl _, fun _ c hc => ⟨c, hc, rfl⟩, rfl⟩

theorem SameEdges.trans {s t u : Store} (hst : s.SameEdges t) (htu : t.SameEdges u) : s.SameEdges u := by
  refine ⟨htu.ids.trans hst.ids, fun id => (htu.targets id).trans (hst.targets id),
    fun id => (htu.inputs id).trans (hst.inputs id), ?_, htu.nextId.trans hst.nextId⟩
  intro id c hc
  obtain ⟨d, hd, hcd⟩ := htu.own_id id c hc
  obtain ⟨e, he, hde⟩ := hst.own_id id d hd
  exact ⟨e, he, hcd.trans hde⟩

/-- Changing cells keeps the edges if it keeps ids and, up to their order, inputs. -/
theorem sameEdges_modify {s : Store} {id : NodeId} {f : Cell → Cell}
    (hf : ∀ c, s.cell? id = some c → (f c).id = c.id ∧ (f c).inputs.Perm c.inputs) : s.SameEdges (s.modify id f) := by
  refine ⟨ids_modify id f, fun _ => rfl, ?_, ?_, rfl⟩
  · intro i
    rcases hc : s.cell? i with _ | c
    · have hnone : (s.modify id f).cell? i = none := by
        rw [cell?_modify, hc]
        split <;> rfl
      rw [Store.inputs, hnone, Store.inputs, hc]
    · by_cases hi : i = id
      · have hnew : (s.modify id f).cell? i = some (f c) := by
          rw [cell?_modify, if_pos hi, hc, Option.map_some]
        rw [inputs_of_cell? hnew, inputs_of_cell? hc]
        exact (hf c (hi ▸ hc)).2
      · have hnew : (s.modify id f).cell? i = some c := by rw [cell?_modify, if_neg hi, hc]
        rw [inputs_of_cell? hnew, inputs_of_cell? hc]
  · intro i c hc
    rw [cell?_modify] at hc
    split at hc
    · rename_i hi
      obtain ⟨d, hd, rfl⟩ := Option.map_eq_some_iff.1 hc
      exact ⟨d, hd, (hf d (hi ▸ hd)).1⟩
    · exact ⟨c, hc, rfl⟩

theorem sameEdges_map {s : Store} {f : Cell → Cell} (hf : ∀ c, (f c).id = c.id ∧ (f c).inputs = c.inputs) :
    s.SameEdges (s.map f) := by
  refine ⟨ids_map f, fun _ => rfl, fun i => .of_eq (inputs_map_of_eq (fun c => (hf c).2) i), ?_, rfl⟩
  · intro i c hc
    rw [cell?_map] at hc
    obtain ⟨d, hd, rfl⟩ := Option.map_eq_some_iff.1 hc
    exact ⟨d, hd, (hf d).1⟩

theorem WellFormed.of_sameEdges {s t : Store} (h : s.WellFormed) (hst : s.SameEdges t) : t.WellFormed := by
  refine h.of_sublist (fun b => ?_) (fun a => ?_) ?_
  · exact (h.inLine b).of_views (hst.own_id b) (fun a => by rw [hst.targets]) (hst.inputs b)
  · rw [hst.targets]
  · rw [hst.ids, hst.nextId]
    exact h.below_nextId

end CellGraph.Store
