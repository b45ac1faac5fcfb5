import CellGraph.Graph.Trace
import CellGraph.Proofs.Graph.Calls

/-!
# Graphs that can come about

A caller starts from a new graph and makes calls on it (`Graph.Call`).  A call that fails leaves the graph as it is: it
is refused before anything changes, or it rolls back (`RollsBack.after_eq`).  A cell that is added is any reachable one,
whether it was taken out of a graph, copied or never in one.  A property that each kind of change keeps (`Kept`) holds for
every reachable graph if it holds for the new ones (`Kept.reachable`).  The cells of a reachable graph are reachable
(`Reachable.cell`), so a copy of a cell can be added again, to any graph.
-/

namespace CellGraph.Graph

/-- A call that can be made on a graph. -/
inductive Call where
  | create (name : String)
  | add (c : Cell)
  | remove (id : NodeId)
  | connect (source target : NodeId)
  | disconnect (source target : NodeId)
  | clean
  | evaluate
  | diagnostics
  | trace (id : NodeId)
  | restore (d : Document)
  | read (text : String)
  | readBytes (bytes : ByteArray)
  /-- A call on the cell under an id. -/
  | onCell (id : NodeId) (call : Cell.Call)

/-- The graph that comes out of a call, or the present one if the call fails. -/
def orSelf {ε : Type} (g : Graph) : Except ε Graph → Graph
  | .ok h => h
  | .error _ => g

/-- The graph after a change, also if it fails. -/
def after {ε : Type} (g : Graph) (change : EStateM ε Graph Unit) : Graph :=
  match change.run g with
  | .ok _ h => h
  | .error _ h => h

/-- A change that rolls back leaves its result, or the graph as it was. -/
theorem RollsBack.after_eq {ε : Type} {change : EStateM ε Graph Unit} (hback : RollsBack change) (g : Graph) :
    g.after change = g.orSelf (g.result change) := by
  unfold after result
  rcases hrun : change.run g with ⟨_, h⟩ | ⟨e, h⟩
  · rfl
  · exact hback g h e hrun

theorem orSelf_keeps {ε : Type} {P : Graph → Prop} {g : Graph} (hg : P g) {r : Except ε Graph}
    (hok : ∀ h, r = .ok h → P h) : P (g.orSelf r) := by
  cases r with
  | ok h => exact hok h rfl
  | error e => exact hg

/-- The graph after a call. -/
def Call.apply : Call → Graph → Graph
  | .create name, g => (g.create name).2
  | .add c, g => g.orSelf (g.add c)
  | .remove id, g => g.orSelf ((g.remove id).map (·.2))
  | .connect source target, g => g.connect source target
  | .disconnect source target, g => g.disconnect source target
  | .clean, g => g.clean.2
  | .evaluate, g => g.evaluate.2
  | .diagnostics, g => g.diagnostics.2
  | .trace id, g => (g.trace id).2
  | .restore d, g => g.after (restoreInPlace d)
  | .read text, g => g.after (readInPlace text)
  | .readBytes bytes, g => g.after (readBytesInPlace bytes)
  | .onCell id call, g => g.modify id call.apply

theorem Call.apply_restore (d : Document) (g : Graph) : (Call.restore d).apply g = g.orSelf (g.restore d) :=
  (rollsBack_restoreInPlace d).after_eq g

theorem Call.apply_read (text : String) (g : Graph) : (Call.read text).apply g = g.orSelf (g.read text) :=
  (rollsBack_readInPlace text).after_eq g

theorem Call.apply_readBytes (bytes : ByteArray) (g : Graph) :
    (Call.readBytes bytes).apply g = g.orSelf (g.readBytes bytes) := (rollsBack_readBytesInPlace bytes).after_eq g

/-- What a graph can become by calls.  A copy of a graph is the same graph. -/
inductive Reachable : Graph → Prop
  | new (config : Config) : Reachable (.ofConfig config)
  | call {g : Graph} (call : Call) : g.Reachable → (∀ c, call = .add c → c.Reachable) → (call.apply g).Reachable

/-- The graph after several calls. -/
def applyAll (g : Graph) (calls : List Call) : Graph := calls.foldl (fun g call => call.apply g) g

theorem Reachable.applyAll {g : Graph} (hg : g.Reachable) {calls : List Call}
    (hadd : ∀ call ∈ calls, ∀ c, call = .add c → c.Reachable) : (g.applyAll calls).Reachable := by
  induction calls generalizing g with
  | nil => exact hg
  | cons call calls ih =>
    have hcall := hg.call call (hadd call (List.mem_cons_self ..))
    exact ih hcall fun call hmem => hadd call (List.mem_cons_of_mem _ hmem)

/-- Whether a call brings in a cell that was made elsewhere. -/
def Call.adds : Call → Bool
  | .add _ => true
  | _ => false

theorem Call.reachable_of_not_adds {calls : List Call} (h : (calls.all fun call => !call.adds) = true) :
    ∀ call ∈ calls, ∀ c, call = .add c → c.Reachable := by
  rintro call hmem c rfl
  nomatch List.all_eq_true.1 h _ hmem

/-- A text is read exactly if it tells a document that is restored. -/
theorem read_eq_ok_iff {g h : Graph} {text : String} :
    g.read text = .ok h ↔ ∃ d, Document.ofText? text = some d ∧ g.restore d = .ok h := by
  rcases hd : Document.ofText? text with _ | d
  · simp [read_of_eq_none hd]
  · rw [read_of_eq_some hd]
    rcases hrestore : g.restore d with e | h'
    · simp [Except.mapError, hrestore]
    · simp [Except.mapError, hrestore]

theorem readBytes_eq_ok_iff {g h : Graph} {bytes : ByteArray} :
    g.readBytes bytes = .ok h ↔ ∃ text, String.fromUTF8? bytes = some text ∧ g.read text = .ok h := by
  rcases htext : String.fromUTF8? bytes with _ | text
  · simp [readBytes_of_eq_none htext]
  · simp [readBytes_of_eq_some htext]

/-- What is read is the graph of a document. -/
theorem exists_toGraph_of_read {g h : Graph} {text : String} (hread : g.read text = .ok h) :
    ∃ d : Document, d.toGraph g.config = .ok h := by
  obtain ⟨d, -, hrestore⟩ := read_eq_ok_iff.1 hread
  exact ⟨d, (g.restore_eq d).symm.trans hrestore⟩

theorem exists_toGraph_of_readBytes {g h : Graph} {bytes : ByteArray} (hread : g.readBytes bytes = .ok h) :
    ∃ d : Document, d.toGraph g.config = .ok h := by
  obtain ⟨text, -, hread⟩ := readBytes_eq_ok_iff.1 hread
  exact exists_toGraph_of_read hread

/-! ### What calls keep -/

/-- A property of graphs that each kind of change keeps, whatever the change is good for. -/
structure Kept (P : Graph → Prop) : Prop where
  create {g : Graph} {id : NodeId} (name : String) : P g → g.store.freshId? = some id →
    P { g with store := g.store.insert (.bare id name) }
  insert {g : Graph} {c : Cell} : P g → c.Reachable → c.id ∉ g.ids → P { g with store := g.store.insert c }
  detach {g : Graph} {id : NodeId} : P g → id ≠ g.root → P { g with store := g.store.detach id }
  connect {g : Graph} (source target : NodeId) : P g → P (g.connect source target)
  disconnect {g : Graph} (source target : NodeId) : P g → P (g.disconnect source target)
  modify {g : Graph} {id : NodeId} {f : Cell → Cell} : P g → (∀ c, g.cell? id = some c → c.Follows (f c)) →
    P (g.modify id f)
  map {g : Graph} {f : Cell → Cell} : P g → (∀ c : Cell, c.Follows (f c)) → P { g with store := g.store.map f }
  toGraph {config : Config} {d : Document} {h : Graph} : d.toGraph config = .ok h → P h

namespace Kept

variable {P : Graph → Prop} {g : Graph}

theorem evaluate (hP : Kept P) (hg : P g) : P g.evaluate.2 := by
  refine Store.evaluate_keeps (P := fun s => P { g with store := s }) g.root ?_ hg
  intro s id c hs hc
  refine hP.modify (g := { g with store := s }) hs fun d hd => ?_
  rw [Option.some.inj (hd.symm.trans hc)]
  exact .compile c

/-- A call is made of changes of these kinds. -/
theorem apply (hP : Kept P) (hg : P g) (call : Call) (hadd : ∀ c, call = .add c → c.Reachable) : P (call.apply g) := by
  cases call with
  | create name =>
    rcases g.create_cases name with ⟨id, hid, h⟩ | ⟨-, h⟩
    · rw [Call.apply, h]
      exact hP.create name hg hid
    · rw [Call.apply, h]
      exact hg
  | add c =>
    refine orSelf_keeps hg fun h hok => ?_
    rcases add_eq_ok hok with rfl | ⟨hc, rfl⟩
    · exact hg
    · exact hP.insert hg (hadd c rfl) hc
  | remove id =>
    refine orSelf_keeps hg fun h hok => ?_
    obtain ⟨hid, rfl⟩ := map_remove_eq_ok hok
    exact hP.detach hg hid
  | connect source target => exact hP.connect source target hg
  | disconnect source target => exact hP.disconnect source target hg
  | clean =>
    have hsweep : P { g with store := (sweep g.root g.store g.orphans.reverse []).2 } := by
      refine sweep_keeps (P := fun s => P { g with store := s }) g.root ?_ hg _ _
      exact fun s id hs hid _ _ => hP.detach hs hid
    exact hP.map hsweep fun c => (Cell.Follows.invalidate c).trans (.compile c.invalidate)
  | evaluate => exact hP.evaluate hg
  | diagnostics => exact hP.map hg fun c => .compile c
  | trace id => exact hP.evaluate hg
  | restore d =>
    rw [Call.apply_restore]
    exact orSelf_keeps hg fun h hok => hP.toGraph ((g.restore_eq d).symm.trans hok)
  | read text =>
    rw [Call.apply_read]
    refine orSelf_keeps hg fun h hok => ?_
    obtain ⟨d, hgraph⟩ := exists_toGraph_of_read hok
    exact hP.toGraph hgraph
  | readBytes bytes =>
    rw [Call.apply_readBytes]
    refine orSelf_keeps hg fun h hok => ?_
    obtain ⟨d, hgraph⟩ := exists_toGraph_of_readBytes hok
    exact hP.toGraph hgraph
  | onCell id call => exact hP.modify hg fun c _ => .call call c

/-- What new graphs have and calls keep, all reachable graphs have. -/
theorem reachable (hP : Kept P) (hnew : ∀ config, P (.ofConfig config)) (hg : g.Reachable) : P g := by
  induction hg with
  | new config => exact hnew config
  | call call _ hadd ih => exact hP.apply ih call hadd

end Kept

/-! ### The cells of a reachable graph -/

/-- Every cell of a store is reachable. -/
def AllReachable (s : Store) : Prop := ∀ id c, s.cell? id = some c → c.Reachable

namespace AllReachable

variable {s : Store}

private theorem insert (hs : AllReachable s) {c : Cell} (hc : c.Reachable) : AllReachable (s.insert c) := by
  intro id d hd
  rw [Store.cell?_insert] at hd
  split at hd
  · exact Option.some.inj hd ▸ hc.clearInputs
  · exact hs id d hd

theorem modify (hs : AllReachable s) {id : NodeId} {f : Cell → Cell}
    (hf : ∀ c, s.cell? id = some c → c.Reachable → (f c).Reachable) : AllReachable (s.modify id f) := by
  intro i d hd
  rw [Store.cell?_modify] at hd
  split at hd
  · rename_i hi
    obtain ⟨c, hc, rfl⟩ := Option.map_eq_some_iff.1 hd
    exact hf c (hi ▸ hc) (hs i c hc)
  · exact hs i d hd

private theorem map (hs : AllReachable s) {f : Cell → Cell} (hf : ∀ c, c.Reachable → (f c).Reachable) :
    AllReachable (s.map f) := by
  intro i d hd
  rw [Store.cell?_map] at hd
  obtain ⟨c, hc, rfl⟩ := Option.map_eq_some_iff.1 hd
  exact hf c (hs i c hc)

private theorem detach (hs : AllReachable s) (id : NodeId) : AllReachable (s.detach id) := by
  intro i d hd
  rw [Store.cell?_detach] at hd
  split at hd
  · simp at hd
  · obtain ⟨c, hc, rfl⟩ := Option.map_eq_some_iff.1 hd
    have hiterate : ∀ n, ((fun c : Cell => c.removeInput id)^[n] c).Reachable := by
      intro n
      induction n with
      | zero => exact hs i c hc
      | succ n ih =>
        rw [Function.iterate_succ_apply']
        exact ih.removeInput id
    exact hiterate _

private theorem connect {g : Graph} (hg : AllReachable g.store) (a b : NodeId) :
    AllReachable (g.connect a b).store := by
  unfold Graph.connect
  split
  · exact modify (fun i c hc => hg i c hc) fun _ _ hc => hc.addInput a
  · exact hg

private theorem unlink (hs : AllReachable s) (a b : NodeId) : AllReachable (s.unlink a b) := by
  unfold Store.unlink
  split
  · exact modify (fun i c hc => hs i c hc) fun _ _ hc => hc.removeInput a
  · exact hs

private theorem toGraph {config : Config} {d : Document} {h : Graph} (hgraph : d.toGraph config = .ok h) :
    AllReachable h.store := by
  obtain ⟨root, ts, edges, store, records, g, -, -, hinsert, hconnect, horder⟩ := Document.toGraph_eq_ok hgraph
  have hempty : AllReachable .empty := fun _ _ hc => nomatch hc
  have hstore : AllReachable store :=
    Document.insertCells_keeps (P := AllReachable) (fun s r hs => hs.insert r.reachable_toCell) hempty hinsert
  have hg : AllReachable g.store :=
    Document.connectAll_keeps (P := fun g => AllReachable g.store) (fun _ a b hg => connect hg a b) hstore hconnect
  exact Document.orderInputs_keeps (P := fun g => AllReachable g.store)
    (fun _ r hg _ => modify hg fun _ _ hc => hc.setInputs r.inputs) hg horder

end AllReachable

theorem kept_allReachable : Kept fun g => AllReachable g.store where
  create name hg _ := AllReachable.insert hg (.bare _ name)
  insert hg hc _ := AllReachable.insert hg hc
  detach {_ id} hg _ := AllReachable.detach hg id
  connect source target hg := AllReachable.connect hg source target
  disconnect source target hg := AllReachable.unlink hg source target
  modify hg hf := AllReachable.modify hg fun c hc hreachable => (hf c hc).reachable hreachable
  map hg hf := AllReachable.map hg fun c hreachable => (hf c).reachable hreachable
  toGraph hgraph := AllReachable.toGraph hgraph

theorem allReachable_ofConfig (config : Config) : AllReachable (ofConfig config).store := by
  have hempty : AllReachable .empty := fun _ _ hc => nomatch hc
  have hroot : AllReachable (Store.empty.create config.rootName).2 := hempty.insert (.bare _ config.rootName)
  exact hroot.modify fun _ _ hc => hc.call (.setFormula (.expression config.rootFormula))

/-- The cells of a reachable graph are reachable. -/
theorem Reachable.cell {g : Graph} (hg : g.Reachable) {id : NodeId} {c : Cell} (hc : g.cell? id = some c) :
    c.Reachable := kept_allReachable.reachable allReachable_ofConfig hg id c hc

end CellGraph.Graph
