import CellGraph.Proofs.Graph.Meaning

/-!
# What a ledger records

The ledger of a reachable graph has an outcome for every id of its order, which is what the configuration of the cell
makes of the values that the ledger has for the inputs (`Reachable.outcome?_eq`).  These are in the order as well
(`Reachable.inputs_mem_order`), and the value of the graph is that of the root (`Reachable.value?_eq`).
-/

namespace CellGraph.Graph

variable {g : Graph} {id : NodeId}

/-- The ledger of a graph has the meaning of every cell of its order. -/
theorem Reachable.outcome?_of_mem_order (hg : g.Reachable) (hid : id ∈ g.evaluate.1.order) :
    ∃ o, g.evaluate.1.outcome? id = some o ∧ g.Means id o := by
  obtain ⟨horder, hmeans⟩ := hg.means_schedule
  have hall : g.evaluate.1.order = g.store.schedule g.root ++ [] := horder.trans (List.append_nil _).symm
  exact Ledger.outcome?_of_forall₂ hall hmeans (horder ▸ hid)

theorem Reachable.inputs_mem_order (hg : g.Reachable) (hid : id ∈ g.evaluate.1.order) :
    ∀ i ∈ g.inputs id, i ∈ g.evaluate.1.order := by
  intro i hi
  obtain ⟨earlier, later, hsplit⟩ := List.append_of_mem hid
  rw [hg.means_schedule.1] at hsplit ⊢
  have hbefore := hg.wellFormed.store.inputs_before_schedule hg.wellFormed.root_mem hsplit i hi
  exact hsplit ▸ List.mem_append_left _ hbefore

theorem Reachable.root_mem_order (hg : g.Reachable) : g.root ∈ g.evaluate.1.order := by
  rw [hg.means_schedule.1]
  exact (hg.wellFormed.store.mem_schedule_iff hg.wellFormed.root_mem).2 .refl

/-- What is recorded of a cell is what its configuration makes of the values that are recorded of its inputs. -/
theorem Reachable.outcome?_eq (hg : g.Reachable) (hid : id ∈ g.evaluate.1.order) :
    ∃ c, g.cell? id = some c ∧
      g.evaluate.1.outcome? id = some (c.outcome (c.inputs.map g.evaluate.1.value?)) := by
  obtain ⟨o, ho, hmeans⟩ := hg.outcome?_of_mem_order hid
  obtain @⟨_, c, m, hc, hm⟩ := hmeans
  refine ⟨c, hc, ho.trans ?_⟩
  congr 2
  apply List.map_congr_left
  intro i hi
  have hinput : i ∈ g.inputs id := by rwa [inputs, Store.inputs_of_cell? hc]
  obtain ⟨o', ho', hmeans'⟩ := hg.outcome?_of_mem_order (hg.inputs_mem_order hid i hinput)
  rw [Ledger.value?, ho', (hm i hi).unique hmeans']
  rfl

/-- The value of a graph is the one that is recorded of its root. -/
theorem Reachable.value?_eq (hg : g.Reachable) : g.value? = g.evaluate.1.value? g.root := by
  obtain ⟨o, ho, hmeans⟩ := hg.outcome?_of_mem_order hg.root_mem_order
  obtain ⟨o', hmeans', hvalue⟩ := hg.value?_of_means
  rw [hvalue, Ledger.value?, ho, hmeans'.unique hmeans]
  rfl

end CellGraph.Graph
