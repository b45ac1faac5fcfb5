import CellGraph.Document.Restore
import CellGraph.Proofs.Document.Record
import CellGraph.Proofs.Store.Views
import Mathlib.Data.List.Perm.Basic

/-!
# Restoring in place

A graph is restored in place: it is cleared, rebuilt and, if that fails, put back.  What comes out depends on nothing of
the graph that was there but its options.  So it can be built from an empty store, each stage by a function of its own
(`Document.toGraph`), and that gives the same graph or the same fault (`Graph.restore_eq`).  No cell collides with another
one on the way, because the records have distinct ids and the store was empty.  A graph that is not restored is what it
was before (`Graph.rollsBack_restoreInPlace`).
-/

namespace CellGraph

namespace Document

/-! ### Building a graph -/

/-- Puts the cells of the records into a store, in the order of the ids.  The records come out in that order, and none may
be left over. -/
def insertCells : List NodeId → List Record → Store → Except RestoreError (Store × List Record)
  | [], rs, s =>
    match rs with
    | [] => .ok (s, [])
    | r :: _ => .error (.notListed r.id)
  | id :: ids, rs, s =>
    match rs.find? (·.id == id) with
    | none => .error (.noRecord id)
    | some r =>
      match insertCells ids (rs.eraseP (·.id == id)) (s.insert r.toCell) with
      | .ok (s, rs) => .ok (s, r :: rs)
      | .error e => .error e

/-- Adds edges, each of which has to be there afterwards. -/
def connectAll : List (NodeId × NodeId) → Graph → Except RestoreError Graph
  | [], g => .ok g
  | (source, target) :: edges, g =>
    let g := g.connect source target
    if g.isConnected source target then connectAll edges g else .error (.edgeRejected source target)

/-- Brings the inputs into the order of the records, which have to list the cells that feed each one. -/
def orderInputs : List Record → Graph → Except RestoreError Graph
  | [], g => .ok g
  | r :: rs, g =>
    if r.inputs.isPerm (g.inputs r.id) then orderInputs rs (g.modify r.id fun c => c.setInputs r.inputs)
    else .error (.inputsMismatch r.id)

/-- The graph that a document describes, with some options. -/
def toGraph (config : Config) (d : Document) : Except RestoreError Graph :=
  match describedTwice? d.nodes [], d.edges with
  | some id, _ => .error (.describedTwice id)
  | none, [] => .error .noRoot
  | none, (root, _) :: _ =>
    match insertCells (d.edges.map (·.1)) d.nodes .empty with
    | .error e => .error e
    | .ok (store, records) =>
      match connectAll d.edgeList ⟨store, root, config⟩ with
      | .error e => .error e
      | .ok g => orderInputs records g

/-! ### Placing the records -/

theorem describedTwice?_eq_none {rs : List Record} {before : List NodeId} :
    describedTwice? rs before = none ↔ (rs.map (·.id)).Nodup ∧ ∀ r ∈ rs, r.id ∉ before := by
  induction rs generalizing before with
  | nil => simp [describedTwice?]
  | cons r rs ih =>
    rw [describedTwice?, List.map_cons, List.nodup_cons, List.forall_mem_cons]
    by_cases hr : r.id ∈ before
    · rw [if_pos (List.contains_iff_mem.2 hr)]
      simp [hr]
    · rw [if_neg fun h => hr (List.contains_iff_mem.1 h), ih]
      constructor
      · rintro ⟨hnodup, hfresh⟩
        refine ⟨⟨fun hmem => ?_, hnodup⟩, hr, fun q hq hold => hfresh q hq (List.mem_cons_of_mem _ hold)⟩
        obtain ⟨q, hq, hid⟩ := List.mem_map.1 hmem
        exact hfresh q hq (hid ▸ List.mem_cons_self ..)
      · rintro ⟨⟨hnew, hnodup⟩, -, hfresh⟩
        refine ⟨hnodup, fun q hq hold => ?_⟩
        rcases List.mem_cons.1 hold with hid | hold
        · exact hnew (hid ▸ List.mem_map_of_mem hq)
        · exact hfresh q hq hold

theorem perm_cons_eraseP_of_find? {α : Type} {p : α → Bool} {as : List α} {a : α} (h : as.find? p = some a) :
    as.Perm (a :: as.eraseP p) := by
  obtain ⟨hp, before, after, rfl, hbefore⟩ := List.find?_eq_some_iff_append.1 h
  have hnone : ∀ b ∈ before, ¬ p b = true := fun b hb => by simpa using hbefore b hb
  rw [List.eraseP_append_right _ hnone, List.eraseP_cons_of_pos hp]
  exact List.perm_middle

end Document

/-! ### What a change gives -/

section Outcome

variable {ε σ α β : Type}

/-- What a change gives with the state after it, or why it fails. -/
def outcome (x : EStateM ε σ α) (s : σ) : Except ε (α × σ) :=
  match x.run s with
  | .ok a t => .ok (a, t)
  | .error e _ => .error e

theorem outcome_bind (x : EStateM ε σ α) (f : α → EStateM ε σ β) (s : σ) :
    outcome (x >>= f) s = (outcome x s).bind fun p => outcome (f p.1) p.2 := by
  show outcome (EStateM.bind x f) s = _
  unfold outcome EStateM.run EStateM.bind
  rcases x s with ⟨a, t⟩ | ⟨e, t⟩
  · rfl
  · rfl

end Outcome

namespace Document

variable {g : Graph}

/-- A cell with a new id does not collide. -/
theorem outcome_addCell {c : Cell} (h : c.id ∉ g.ids) :
    outcome (addCell c) g = .ok ((), { g with store := g.store.insert c }) := by
  have hadd : g.add c = .ok { g with store := g.store.insert c } := by
    have hnone : g.cell? c.id = none := Store.cell?_eq_none.2 h
    rw [Graph.add, hnone]
  rw [addCell, outcome_bind]
  simp only [outcome, EStateM.run_get, Except.bind]
  rw [hadd]
  rfl

/-- Cells of records with distinct ids that are new to the graph are added one after the other. -/
theorem outcome_addCells {ids : List NodeId} {rs : List Record} (h : (g.ids ++ rs.map (·.id)).Nodup) :
    outcome (addCells ids rs) g =
      (insertCells ids rs g.store).map fun p => (p.2, { g with store := p.1 }) := by
  induction ids generalizing rs g with
  | nil => cases rs <;> rfl
  | cons id ids ih =>
    rw [addCells, insertCells]
    rcases hfind : rs.find? (·.id == id) with _ | r
    · rw [hfind]
      rfl
    · rw [hfind]
      have hperm := perm_cons_eraseP_of_find? hfind
      have hids : (g.ids ++ r.id :: (rs.eraseP (·.id == id)).map (·.id)).Nodup :=
        ((hperm.map Record.id).append_left g.ids).nodup_iff.1 h
      have hnew : r.toCell.id ∉ g.ids := by
        rw [r.id_toCell]
        exact fun hmem => (List.nodup_append.1 hids).2.2 _ hmem _ (List.mem_cons_self ..) rfl
      have hnext : Graph.ids { g with store := g.store.insert r.toCell } = g.ids ++ [r.id] :=
        (Store.ids_insert hnew).trans (by rw [r.id_toCell]; rfl)
      have hrest : outcome (addCells ids (rs.eraseP (·.id == id))) { g with store := g.store.insert r.toCell } = _ :=
        ih (by rwa [hnext, List.append_assoc, List.singleton_append])
      simp only [outcome_bind, outcome_addCell hnew, Except.bind, hrest]
      rcases insertCells ids (rs.eraseP (·.id == id)) (g.store.insert r.toCell) with e | ⟨s, rest⟩
      · rfl
      · rfl

theorem outcome_addEdge (source target : NodeId) : outcome (addEdge source target) g =
    if (g.connect source target).isConnected source target then .ok ((), g.connect source target)
    else .error (.edgeRejected source target) := by
  rw [addEdge, outcome_bind]
  rcases hadded : (g.connect source target).isConnected source target
  · simp [outcome, Except.bind, hadded]
  · simp [outcome, Except.bind, hadded]

theorem outcome_addEdges (edges : List (NodeId × NodeId)) :
    outcome (edges.forM fun e => addEdge e.1 e.2) g = (connectAll edges g).map fun h => ((), h) := by
  induction edges generalizing g with
  | nil => rfl
  | cons e edges ih =>
    rw [List.forM, outcome_bind, outcome_addEdge, connectAll]
    split
    · exact ih
    · rfl

theorem outcome_arrangeInputs (r : Record) : outcome (arrangeInputs r) g =
    if r.inputs.isPerm (g.inputs r.id) then .ok ((), g.modify r.id fun c => c.setInputs r.inputs)
    else .error (.inputsMismatch r.id) := by
  rcases hinputs : r.inputs.isPerm (g.inputs r.id)
  · simp [arrangeInputs, outcome, hinputs]
  · simp [arrangeInputs, outcome, hinputs]

theorem outcome_arrangeAll (rs : List Record) :
    outcome (rs.forM arrangeInputs) g = (orderInputs rs g).map fun h => ((), h) := by
  induction rs generalizing g with
  | nil => rfl
  | cons r rs ih =>
    rw [List.forM, outcome_bind, outcome_arrangeInputs, orderInputs]
    split
    · exact ih
    · rfl

/-- What becomes of the graph that was there does not matter, but for its options. -/
theorem outcome_rebuild (d : Document) (g : Graph) :
    outcome d.rebuild g = (d.toGraph g.config).map fun h => ((), h) := by
  unfold rebuild toGraph
  rcases htwice : describedTwice? d.nodes [] with _ | id
  · rcases hedges : d.edges with _ | ⟨⟨root, targets⟩, edges⟩
    · rfl
    · -- the graph is empty when the first cell comes, so only the records could collide with each other
      have hcells : outcome (addCells (((root, targets) :: edges).map (·.1)) d.nodes)
          { g with store := .empty, root } = _ := outcome_addCells (describedTwice?_eq_none.1 htwice).1
      show outcome (addCells _ d.nodes >>= _) { g with store := .empty, root } = _
      simp only [outcome_bind, hcells, outcome_addEdges, outcome_arrangeAll]
      generalize insertCells _ d.nodes .empty = placed
      rcases placed with e | ⟨store, records⟩
      · rfl
      · simp only [Except.map, Except.bind]
        rcases connectAll d.edgeList ⟨store, root, g.config⟩ with e | h
        · rfl
        · rfl
  · rfl

/-! ### Faults that do not occur -/

theorem insertCells_ne_notAdded (ids : List NodeId) (rs : List Record) (s : Store) (e : GraphError) :
    insertCells ids rs s ≠ .error (.notAdded e) := by
  induction ids generalizing rs s with
  | nil => cases rs <;> nofun
  | cons id ids ih =>
    rw [insertCells]
    split
    · nofun
    · split
      · nofun
      · rename_i hrest
        exact fun h => ih _ _ (hrest.trans (congrArg Except.error (Except.error.inj h)))

theorem connectAll_ne_notAdded (edges : List (NodeId × NodeId)) (g : Graph) (e : GraphError) :
    connectAll edges g ≠ .error (.notAdded e) := by
  induction edges generalizing g with
  | nil => nofun
  | cons edge edges ih =>
    rw [connectAll]
    split
    · exact ih _
    · nofun

theorem orderInputs_ne_notAdded (rs : List Record) (g : Graph) (e : GraphError) :
    orderInputs rs g ≠ .error (.notAdded e) := by
  induction rs generalizing g with
  | nil => nofun
  | cons r rs ih =>
    rw [orderInputs]
    split
    · exact ih _
    · nofun

end Document

namespace Graph

variable {ε ε' : Type} {change : EStateM ε Graph Unit} {g h : Graph} {d : Document}

/-! ### Changes that roll back -/

/-- A change that leaves the graph as it was if it fails. -/
def RollsBack (change : EStateM ε Graph Unit) : Prop := ∀ g h e, change.run g = .error e h → h = g

theorem RollsBack.throw (e : ε) : RollsBack (throw e : EStateM ε Graph Unit) := by
  intro g h _ hrun
  exact (EStateM.Result.error.inj hrun).2.symm

theorem RollsBack.adaptExcept (hback : RollsBack change) (f : ε → ε') : RollsBack (change.adaptExcept f) := by
  intro g h e hrun
  rw [EStateM.run_adaptExcept] at hrun
  rcases hchange : change.run g with ⟨_, k⟩ | ⟨e', k⟩
  · rw [hchange] at hrun
    nomatch hrun
  · rw [hchange] at hrun
    exact (EStateM.Result.error.inj hrun).2 ▸ hback g k e' hchange

theorem result_eq (change : EStateM ε Graph Unit) (g : Graph) : g.result change = (outcome change g).map (·.2) := by
  unfold result outcome
  rcases change.run g with ⟨_, h⟩ | ⟨e, h⟩
  · rfl
  · rfl

theorem result_adaptExcept (change : EStateM ε Graph Unit) (f : ε → ε') (g : Graph) :
    g.result (change.adaptExcept f) = (g.result change).mapError f := by
  unfold result
  rw [EStateM.run_adaptExcept]
  rcases change.run g with ⟨_, h⟩ | ⟨e, h⟩
  · rfl
  · rfl

/-! ### Restoring -/

theorem run_restoreInPlace_of_ok (hrebuild : d.rebuild.run g = .ok () h) : (restoreInPlace d).run g = .ok () h := by
  show EStateM.tryCatch d.rebuild _ g = _
  unfold EStateM.run at hrebuild
  rw [EStateM.tryCatch, hrebuild]

theorem run_restoreInPlace_of_error {e : RestoreError} (hrebuild : d.rebuild.run g = .error e h) :
    (restoreInPlace d).run g = .error e g := by
  show EStateM.tryCatch d.rebuild _ g = _
  unfold EStateM.run at hrebuild
  rw [EStateM.tryCatch, hrebuild]
  rfl

theorem rollsBack_restoreInPlace (d : Document) : RollsBack (restoreInPlace d) := by
  intro g h e hrun
  rcases hrebuild : d.rebuild.run g with ⟨_, k⟩ | ⟨e', k⟩
  · rw [run_restoreInPlace_of_ok hrebuild] at hrun
    nomatch hrun
  · rw [run_restoreInPlace_of_error hrebuild] at hrun
    exact (EStateM.Result.error.inj hrun).2.symm

/-- Restoring in place builds the graph of the document. -/
theorem restore_eq (g : Graph) (d : Document) : g.restore d = d.toGraph g.config := by
  have hplace : outcome (restoreInPlace d) g = outcome d.rebuild g := by
    unfold outcome
    rcases hrebuild : d.rebuild.run g with ⟨_, h⟩ | ⟨e, h⟩
    · rw [run_restoreInPlace_of_ok hrebuild]
    · rw [run_restoreInPlace_of_error hrebuild]
  rw [restore, result_eq, hplace, d.outcome_rebuild]
  rcases d.toGraph g.config with e | h
  · rfl
  · rfl

/-- No cell of a document collides with another one. -/
theorem restore_ne_notAdded (g : Graph) (d : Document) (e : GraphError) : g.restore d ≠ .error (.notAdded e) := by
  rw [restore_eq]
  unfold Document.toGraph
  intro hgraph
  split at hgraph
  · nomatch hgraph
  · nomatch hgraph
  · split at hgraph
    · rename_i hinsert
      exact Document.insertCells_ne_notAdded _ _ _ e (hinsert.trans (congrArg Except.error (Except.error.inj hgraph)))
    · split at hgraph
      · rename_i hconnect
        exact Document.connectAll_ne_notAdded _ _ e (hconnect.trans (congrArg Except.error (Except.error.inj hgraph)))
      · exact Document.orderInputs_ne_notAdded _ _ e hgraph

/-! ### Reading -/

theorem rollsBack_readInPlace (text : String) : RollsBack (readInPlace text) := by
  unfold readInPlace
  split
  · exact .throw _
  · exact (rollsBack_restoreInPlace _).adaptExcept _

theorem rollsBack_readBytesInPlace (bytes : ByteArray) : RollsBack (readBytesInPlace bytes) := by
  unfold readBytesInPlace
  split
  · exact .throw _
  · exact rollsBack_readInPlace _

/-- A text that is no document is not read. -/
theorem read_of_eq_none {text : String} (hd : Document.ofText? text = none) (g : Graph) :
    g.read text = .error .malformed := by
  rw [read, readInPlace, hd]
  rfl

/-- A text is read by restoring its document. -/
theorem read_of_eq_some {text : String} (hd : Document.ofText? text = some d) (g : Graph) :
    g.read text = (g.restore d).mapError .restore := by
  rw [read, readInPlace, hd]
  exact result_adaptExcept _ _ g

theorem readBytes_of_eq_none {bytes : ByteArray} (htext : String.fromUTF8? bytes = none) (g : Graph) :
    g.readBytes bytes = .error .stream := by
  rw [readBytes, readBytesInPlace, htext]
  rfl

theorem readBytes_of_eq_some {bytes : ByteArray} {text : String} (htext : String.fromUTF8? bytes = some text)
    (g : Graph) : g.readBytes bytes = g.read text := by
  rw [readBytes, readBytesInPlace, htext]
  rfl

end Graph

end CellGraph
