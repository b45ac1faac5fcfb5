import CellGraph.Proofs.Graph.Forgetting
import CellGraph.Proofs.Graph.Programs

/-!
# What calls answer

What a caller is told by a call on a cell (`Cell.Call.answer`), by a call on a graph (`Graph.Call.answer`) and by a
view of a graph (`Graph.View.read`).  The state of a cell and its program are not among the answers.  Graphs that
differ at most in what was compiled give the same answers, as long as no kept program is out of date, and stay like
each other.
-/

namespace CellGraph

/-- What a caller is told. -/
inductive Answer where
  /-- The call gives nothing. -/
  | done
  /-- There is no cell under the id. -/
  | absent
  | truth (b : Bool)
  | number (n : Nat)
  | id (id : NodeId)
  | ids (ids : List NodeId)
  | text (s : String)
  | config (config : Config)
  | record (r : Record)
  | document (d : Document)
  | written (bytes : ByteArray) (r : Except DocumentError Unit)
  | compiled (e : Option Formula.CompileError)
  | outcome (o : Outcome)
  | value (v : Option Value)
  | ledger (l : Ledger)
  | diagnostics (ds : List Diagnostic)
  | added (r : Except GraphError NodeId)
  /-- The configuration of the cell that was taken out. -/
  | removed (r : Except GraphError Record)
  | restored (r : Except RestoreError Unit)
  | read (r : Except DocumentError Unit)

/-! ### Calls on a cell -/

namespace Cell

def Call.answer : Call → Cell → Answer
  | .compile, c => .compiled c.compile.failure?
  | .evaluate l, c => .outcome (c.evaluate l).1
  | _, _ => .done

/-- Cells that differ at most in what was compiled give the same answers. -/
theorem Call.answer_congr (call : Call) {c d : Cell} (hc : c.UpToDate) (hd : d.UpToDate) (h : c.forget = d.forget) :
    call.answer c = call.answer d := by
  have hrecord : Record.ofCell c = Record.ofCell d := record_of_forget h
  cases call with
  | compile => exact congrArg Answer.compiled (hd.failure?_compile_of_record hc hrecord)
  | evaluate l =>
    exact congrArg Answer.outcome (hd.fst_evaluate_congr hc (rule_of_record hrecord) (congrArg Record.fallback hrecord)
      (congrArg Record.precision hrecord) (congrArg Record.inputs hrecord) l)
  | _ => rfl

end Cell

namespace Graph

/-! ### Views of a graph -/

/-- What can be read off a graph. -/
inductive View where
  | root
  | config
  | size
  | ids
  | contains (id : NodeId)
  /-- The configuration of the cell under an id. -/
  | record (id : NodeId)
  | inputs (id : NodeId)
  | targets (id : NodeId)
  | isConnected (source target : NodeId)
  | orphans
  | leaves
  | order
  | document
  | dump
  | dumpWithin (room : Nat)
  | formatTrace (l : Ledger) (id : NodeId)

def View.read : View → Graph → Answer
  | .root, g => .id g.root
  | .config, g => .config g.config
  | .size, g => .number g.size
  | .ids, g => .ids g.ids
  | .contains id, g => .truth (g.contains id)
  | .record id, g =>
    match g.cell? id with
    | some c => .record (.ofCell c)
    | none => .absent
  | .inputs id, g => .ids (g.inputs id)
  | .targets id, g => .ids (g.targets id)
  | .isConnected source target, g => .truth (g.isConnected source target)
  | .orphans, g => .ids g.orphans
  | .leaves, g => .ids g.leaves
  | .order, g => .ids g.order
  | .document, g => .document g.document
  | .dump, g => .text g.dump
  | .dumpWithin room, g => .written (g.dumpWithin room).1 (g.dumpWithin room).2
  | .formatTrace l id, g => .text (g.formatTrace l id)

variable {g k : Graph}

/-- No view tells graphs apart that differ at most in what was compiled. -/
theorem View.read_congr (view : View) (h : g.Like k) : view.read g = view.read k := by
  cases view with
  | root => exact congrArg Answer.id h.root
  | config => exact congrArg Answer.config h.config
  | size => exact congrArg Answer.number h.store.size
  | ids => exact congrArg Answer.ids h.store.ids
  | contains id => exact congrArg Answer.truth (h.store.contains id)
  | record id =>
    rcases h.store.cell_cases id with ⟨hg, hk⟩ | ⟨c, d, hg, hk, hcd⟩
    · simp only [read, Graph.cell?, hg, hk]
    · simp only [read, Graph.cell?, hg, hk, Cell.record_of_forget hcd]
  | inputs id => exact congrArg Answer.ids (h.store.inputs id)
  | targets id => exact congrArg Answer.ids (h.store.targets id)
  | isConnected source target => exact congrArg Answer.truth (h.store.hasEdge source target)
  | orphans => exact congrArg Answer.ids h.orphans
  | leaves => exact congrArg Answer.ids h.leaves
  | order => exact congrArg Answer.ids (h.store.sortWith none)
  | document => exact congrArg Answer.document h.alike.document.symm
  | dump => exact congrArg Answer.text h.dump
  | dumpWithin room => simp only [read, Graph.dumpWithin, Graph.dumpTo, h.alike.document, h.config]
  | formatTrace l id => exact congrArg Answer.text (h.formatTrace l id)

/-! ### Calls on a graph -/

def Call.answer : Call → Graph → Answer
  | .create name, g => .id (g.create name).1
  | .add c, g => .added ((g.add c).map fun _ => c.id)
  | .remove id, g => .removed ((g.remove id).map fun p => .ofCell p.1)
  | .connect _ _, _ => .done
  | .disconnect _ _, _ => .done
  | .clean, g => .ids g.clean.1
  | .evaluate, g => .ledger g.evaluate.1
  | .diagnostics, g => .diagnostics g.diagnostics.1
  | .trace id, g => .text (g.trace id).1
  | .restore d, g => .restored ((g.restore d).map fun _ => ())
  | .read text, g => .read ((g.read text).map fun _ => ())
  | .readBytes bytes, g => .read ((g.readBytes bytes).map fun _ => ())
  | .onCell id call, g =>
    match g.cell? id with
    | some c => call.answer c
    | none => .absent

namespace Like

theorem restore (h : g.Like k) (d : Document) : g.restore d = k.restore d := by
  rw [restore_eq, h.config, restore_eq]

theorem read (h : g.Like k) (text : String) : g.read text = k.read text := by
  rcases hd : Document.ofText? text with _ | d
  · rw [read_of_eq_none hd, read_of_eq_none hd]
  · rw [read_of_eq_some hd, read_of_eq_some hd, h.restore]

theorem readBytes (h : g.Like k) (bytes : ByteArray) : g.readBytes bytes = k.readBytes bytes := by
  rcases htext : String.fromUTF8? bytes with _ | text
  · rw [readBytes_of_eq_none htext, readBytes_of_eq_none htext]
  · rw [readBytes_of_eq_some htext, readBytes_of_eq_some htext, h.read]

theorem orSelf {ε : Type} (h : g.Like k) (r : Except ε Graph) : (g.orSelf r).Like (k.orSelf r) := by
  cases r with
  | ok l => exact .refl l
  | error e => exact h

/-- Putting in cells that differ at most in what was compiled. -/
theorem answer_add (h : g.Like k) {c d : Cell} (hcd : c.forget = d.forget) :
    (Call.add c).answer g = (Call.add d).answer k ∧ ((Call.add c).apply g).Like ((Call.add d).apply k) := by
  simp only [Call.answer, Call.apply]
  rcases h.add_cases hcd with ⟨e, hg, hk⟩ | ⟨g', k', hg, hk, hlike⟩
  · rw [hg, hk]
    exact ⟨rfl, h⟩
  · rw [hg, hk]
    exact ⟨congrArg (fun r : Record => Answer.added (.ok r.id)) (Cell.record_of_forget hcd), hlike⟩

theorem answer_remove (h : g.Like k) (id : NodeId) :
    (Call.remove id).answer g = (Call.remove id).answer k ∧
      ((Call.remove id).apply g).Like ((Call.remove id).apply k) := by
  simp only [Call.answer, Call.apply]
  rcases h.remove_cases id with ⟨e, hg, hk⟩ | ⟨c, d, g', k', hg, hk, hcd, hlike⟩
  · rw [hg, hk]
    exact ⟨rfl, h⟩
  · rw [hg, hk]
    exact ⟨congrArg (fun r => Answer.removed (.ok r)) (Cell.record_of_forget hcd), hlike⟩

end Like

/-- A call gives the same answer on graphs that differ at most in what was compiled, and they stay like each other. -/
theorem Call.answer_congr (call : Call) (hown : call.adds = false) (h : g.Like k) (hg : g.UpToDate) (hk : k.UpToDate) :
    call.answer g = call.answer k ∧ (call.apply g).Like (call.apply k) := by
  -- a ledger would show a kept program that is out of date
  have hledger : g.evaluate.1 = k.evaluate.1 := (h.alike.evaluate hg hk).symm
  have hevaluate : g.evaluate.2.Like k.evaluate.2 := h.of_like (like_evaluate g) (like_evaluate k)
  cases call with
  | create name => exact ⟨congrArg Answer.id (h.create name).1, (h.create name).2⟩
  | add c => exact Bool.noConfusion hown
  | remove id => exact h.answer_remove id
  | connect source target => exact ⟨rfl, h.connect source target⟩
  | disconnect source target => exact ⟨rfl, h.disconnect source target⟩
  | clean => exact ⟨congrArg Answer.ids h.clean.1, h.clean.2⟩
  | evaluate => exact ⟨congrArg Answer.ledger hledger, hevaluate⟩
  | diagnostics =>
    refine ⟨congrArg Answer.diagnostics (h.alike.diagnostics hg hk).symm, ?_⟩
    exact h.of_like (like_diagnostics g) (like_diagnostics k)
  | trace id =>
    refine ⟨?_, hevaluate⟩
    show Answer.text (g.evaluate.2.formatTrace g.evaluate.1 id) = .text (k.evaluate.2.formatTrace k.evaluate.1 id)
    rw [hledger, hevaluate.formatTrace]
  | restore d =>
    rw [apply_restore, apply_restore, answer, answer, h.restore]
    exact ⟨rfl, h.orSelf _⟩
  | read text =>
    rw [apply_read, apply_read, answer, answer, h.read]
    exact ⟨rfl, h.orSelf _⟩
  | readBytes bytes =>
    rw [apply_readBytes, apply_readBytes, answer, answer, h.readBytes]
    exact ⟨rfl, h.orSelf _⟩
  | onCell id call =>
    refine ⟨?_, h.modify call.blind id⟩
    rcases h.store.cell_cases id with ⟨hgid, hkid⟩ | ⟨c, d, hgid, hkid, hcd⟩
    · simp only [answer, Graph.cell?, hgid, hkid]
    · simp only [answer, Graph.cell?, hgid, hkid, call.answer_congr (hg id c hgid) (hk id d hkid) hcd]

end Graph

end CellGraph
