import CellGraph.Proofs.Cell.SameConfig
import CellGraph.Proofs.Graph.Admission
import CellGraph.Proofs.Graph.Answers

/-!
# Putting a cell in

`Graph.add` puts a cell under its own id.  A free id takes it, without its inputs, and an id that is taken keeps its cell
(`add_of_free`, `add_of_live`).  Then it only matters whether the two have the same configuration, for which neither the
inputs count nor what was compiled.  A copy of a cell can be added as often as one likes, except that a cell whose
constant is no number is in conflict with its own copy.
-/

namespace CellGraph

theorem Cell.clearInputs_eq (c : Cell) :
    c.clearInputs = { c with inputs := [], state := if c.inputs = [] then c.state else .stale } := by
  rcases c with ⟨id, name, _ | ⟨i, inputs⟩, rule, fallback, precision, state, program⟩
  · rfl
  · rfl

/-- The inputs of a cell do not come in with it. -/
theorem Store.insert_clearInputs (s : Store) (c : Cell) : s.insert c.clearInputs = s.insert c := by
  have hinputs : c.clearInputs.clearInputs = c.clearInputs := by
    rw [Cell.clearInputs, c.inputs_clearInputs]
  simp only [insert, c.id_clearInputs, hinputs]

namespace Graph

variable {g : Graph} {c d : Cell}

theorem add_of_free (hfree : c.id ∉ g.ids) : g.add c = .ok { g with store := g.store.insert c } := by
  have hnone : g.cell? c.id = none := Store.cell?_eq_none.2 hfree
  rw [add, hnone]

theorem add_of_live (hd : g.cell? c.id = some d) :
    g.add c = if d.sameConfig c then .ok g else .error (.collision c.id) := by
  rw [add, hd]

/-- The id of a cell that is there is the answer if the cell that is added has the same configuration, which that of a
cell whose constant is no number never is. -/
theorem answer_add_of_live (hd : g.cell? c.id = some d) : (Call.add c).apply g = g ∧
    (d.SameConfig c ∧ d.formula? ≠ some (.number .nan) → (Call.add c).answer g = .added (.ok c.id)) ∧
    (¬ (d.SameConfig c ∧ d.formula? ≠ some (.number .nan)) →
      (Call.add c).answer g = .added (.error (.collision c.id))) := by
  rw [← Cell.sameConfig_iff, Call.apply, Call.answer, add_of_live hd]
  by_cases hsame : d.sameConfig c = true
  · rw [if_pos hsame]
    exact ⟨rfl, fun _ => rfl, fun hdiffers => absurd hsame hdiffers⟩
  · rw [if_neg hsame]
    exact ⟨rfl, fun h => absurd h hsame, fun _ => rfl⟩

/-- A cell comes in under its own id if that is free: last, without edges, and stale if it had inputs.  If the id is
taken, nothing changes, and it is told whether the cell that is there has the same configuration.  A copy of a cell has,
unless its constant is no number. -/
theorem Reachable.add_exact (hg : g.Reachable) (c : Cell) :
    (c.id ∉ g.ids →
      (Call.add c).answer g = .added (.ok c.id) ∧
        g.Gains ((Call.add c).apply g)
          { c with inputs := [], state := if c.inputs = [] then c.state else .stale } ∧
        ((Call.add c).apply g).store.nextId = max g.store.nextId (c.id.val.toNat + 1)) ∧
    (∀ d, g.cell? c.id = some d →
      (Call.add c).apply g = g ∧
        (d.SameConfig c ∧ d.formula? ≠ some (.number .nan) → (Call.add c).answer g = .added (.ok c.id)) ∧
        (¬ (d.SameConfig c ∧ d.formula? ≠ some (.number .nan)) →
          (Call.add c).answer g = .added (.error (.collision c.id)))) ∧
    ∀ id d, g.cell? id = some d → (Call.add d).apply g = g ∧
      ((Call.add d).answer g = .added (.ok id) ↔ d.formula? ≠ some (.number .nan)) := by
  refine ⟨fun hfree => ?_, fun d hd => answer_add_of_live hd, fun id d hd => ?_⟩
  · rw [Call.apply, Call.answer, add_of_free hfree, ← c.clearInputs_eq]
    refine ⟨rfl, ?_, rfl⟩
    have hgains := hg.wellFormed.gains (c := c.clearInputs) (c.id_clearInputs ▸ hfree) c.inputs_clearInputs
    rwa [Store.insert_clearInputs] at hgains
  · obtain rfl : d.id = id := hg.wellFormed.store.own_id id d hd
    obtain ⟨happly, hsame, hdiffers⟩ := answer_add_of_live hd
    refine ⟨happly, fun hanswer hnan => ?_, fun hnumber => hsame ⟨.refl d, hnumber⟩⟩
    have hcollision := hdiffers fun h => h.2 hnan
    cases hcollision.symm.trans hanswer

/-- A compiled cell with an input comes in under a free id, and what is there can be put in again, but no other cell
under its id. -/
theorem add_exact_of_created :
    let g := initial.applyAll [.create "a", .onCell ⟨1⟩ (.setFormula (.number 2))]
    let fed := (((Cell.bare ⟨5⟩ "b").setFormula (.number 2)).addInput ⟨1⟩).compile
    let h := (Call.add fed).apply g
    ((Call.add fed).answer g = .added (.ok ⟨5⟩) ∧ h.ids = [⟨0⟩, ⟨1⟩, ⟨5⟩] ∧ h.store.nextId = 6 ∧
        fed.state = .clean ∧ ∃ c, h.cell? ⟨5⟩ = some c ∧ c.inputs = [] ∧ c.state = .stale) ∧
      (∃ d, g.cell? ⟨1⟩ = some d ∧ (Call.add d).answer g = .added (.ok ⟨1⟩)) ∧
      (Call.add (.bare ⟨1⟩ "a")).answer g = .added (.error (.collision ⟨1⟩)) := by
  intro g fed h
  have hg : g.Reachable := (Reachable.new .standard).applyAll (Call.reachable_of_not_adds rfl)
  obtain ⟨d, hd, hformula⟩ : ∃ d, g.cell? ⟨1⟩ = some d ∧ d.formula? = some (.number 2) := ⟨_, rfl, rfl⟩
  have hnumber : d.formula? ≠ some (.number .nan) := by
    rw [hformula]
    decide
  refine ⟨?_, ⟨d, hd, ?_⟩, ?_⟩
  · obtain ⟨hanswer, hgains, hnext⟩ := (Reachable.add_exact hg fed).1 (by decide)
    exact ⟨hanswer, hgains.ids, hnext, rfl, _, hgains.cell, rfl, rfl⟩
  · exact ((Reachable.add_exact hg fed).2.2 ⟨1⟩ d hd).2.2 hnumber
  · refine ((Reachable.add_exact hg (.bare ⟨1⟩ "a")).2.1 d hd).2.2 fun h => ?_
    have hrel : Option.Rel Formula.Same d.formula? none := h.1.formula
    rw [hformula] at hrel
    nomatch hrel

/-- A cell whose constant is no number cannot be put in again, though its copy has the same configuration. -/
theorem not_add_copy_of_nan :
    let g := initial.applyAll [.create "a", .onCell ⟨1⟩ (.setFormula (.number .nan))]
    ∃ d, g.cell? ⟨1⟩ = some d ∧ d.SameConfig d ∧ (Call.add d).answer g = .added (.error (.collision ⟨1⟩)) := by
  intro g
  obtain ⟨d, hd, hid, hformula⟩ : ∃ d, g.cell? ⟨1⟩ = some d ∧ d.id = ⟨1⟩ ∧ d.formula? = some (.number .nan) :=
    ⟨_, rfl, rfl, rfl⟩
  refine ⟨d, hd, .refl d, ?_⟩
  rw [← hid] at hd ⊢
  exact (answer_add_of_live hd).2.2 fun h => h.2 hformula

end Graph

end CellGraph
