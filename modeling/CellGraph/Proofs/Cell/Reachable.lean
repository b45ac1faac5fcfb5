import CellGraph.Cell.Evaluate

/-!
# Cells that can come about

A caller changes the configuration of a cell, compiles it or evaluates it (`Cell.Call`), and a graph changes its inputs.
A cell is reachable if it comes about from a new cell in this way, in a graph or outside of one.
-/

namespace CellGraph.Cell

/-- A call that can be made on a cell. -/
inductive Call where
  | setName (name : String)
  | setFormula (f : Formula)
  | clearFormula
  | setEntry (key v : Value)
  | eraseEntry (key : Value)
  | setFallback (v : Option Value)
  | setPrecision (places : Option UInt32)
  | compile
  /-- The ledger can be of another graph, or of none. -/
  | evaluate (l : Ledger)

/-- The cell after a call. -/
def Call.apply : Call → Cell → Cell
  | .setName name, c => c.setName name
  | .setFormula f, c => c.setFormula f
  | .clearFormula, c => c.clearFormula
  | .setEntry key v, c => c.setEntry key v
  | .eraseEntry key, c => c.eraseEntry key
  | .setFallback v, c => c.setFallback v
  | .setPrecision places, c => c.setPrecision places
  | .compile, c => c.compile
  | .evaluate l, c => (c.evaluate l).2

/-- What a cell can become by calls of callers and by changes of its inputs. -/
inductive Reachable : Cell → Prop
  | bare (id : NodeId) (name : String) : Reachable (.bare id name)
  | call {c : Cell} (call : Call) : c.Reachable → (call.apply c).Reachable
  | addInput {c : Cell} (id : NodeId) : c.Reachable → (c.addInput id).Reachable
  | removeInput {c : Cell} (id : NodeId) : c.Reachable → (c.removeInput id).Reachable
  | clearInputs {c : Cell} : c.Reachable → c.clearInputs.Reachable
  | setInputs {c : Cell} (inputs : List NodeId) : c.Reachable → (c.setInputs inputs).Reachable
  | invalidate {c : Cell} : c.Reachable → c.invalidate.Reachable

/-! ### What stays -/

theorem id_compile (c : Cell) : c.compile.id = c.id := by
  unfold compile
  split
  · split <;> rfl
  · rfl

theorem inputs_compile (c : Cell) : c.compile.inputs = c.inputs := by
  unfold compile
  split
  · split <;> rfl
  · rfl

/-- Evaluating a cell does to it what compiling does. -/
theorem snd_evaluate (c : Cell) (l : Ledger) : (c.evaluate l).2 = c.compile := by
  simp only [evaluate]
  split <;> rfl

theorem id_setEntry (c : Cell) (key v : Value) : (c.setEntry key v).id = c.id := by
  unfold setEntry
  split <;> rfl

theorem inputs_setEntry (c : Cell) (key v : Value) : (c.setEntry key v).inputs = c.inputs := by
  unfold setEntry
  split <;> rfl

/-- A call keeps the id of a cell. -/
theorem Call.id_apply (call : Call) (c : Cell) : (call.apply c).id = c.id := by
  cases call with
  | setEntry key v => exact c.id_setEntry key v
  | compile => exact c.id_compile
  | evaluate l => exact (congrArg Cell.id (c.snd_evaluate l)).trans c.id_compile
  | _ => rfl

/-- A call keeps the inputs of a cell. -/
theorem Call.inputs_apply (call : Call) (c : Cell) : (call.apply c).inputs = c.inputs := by
  cases call with
  | setEntry key v => exact c.inputs_setEntry key v
  | compile => exact c.inputs_compile
  | evaluate l => exact (congrArg Cell.inputs (c.snd_evaluate l)).trans c.inputs_compile
  | _ => rfl

/-- The second cell has the id and the inputs of the first one, and comes about if the first one does. -/
structure Follows (c d : Cell) : Prop where
  id : d.id = c.id
  inputs : d.inputs = c.inputs
  reachable : c.Reachable → d.Reachable

theorem Follows.trans {c d e : Cell} (hcd : c.Follows d) (hde : d.Follows e) : c.Follows e :=
  ⟨hde.id.trans hcd.id, hde.inputs.trans hcd.inputs, fun hc => hde.reachable (hcd.reachable hc)⟩

theorem Follows.call (call : Call) (c : Cell) : c.Follows (call.apply c) :=
  ⟨call.id_apply c, call.inputs_apply c, .call call⟩

theorem Follows.compile (c : Cell) : c.Follows c.compile := .call .compile c

theorem Follows.invalidate (c : Cell) : c.Follows c.invalidate := ⟨rfl, rfl, .invalidate⟩

end CellGraph.Cell
