import CellGraph.Graph.Evaluate
import CellGraph.Proofs.Document.Rebuild

/-!
# What calls do to a graph

What each operation of a graph does to its store.  An operation that goes through many cells does so in steps, and has
an induction rule: what each step keeps, the operation keeps (`sweep_keeps`, `evaluate_keeps`, `toGraph_keeps`).
-/

namespace CellGraph

namespace Store

/-- Evaluating a cell compiles it. -/
theorem snd_evaluateNext (l : Ledger) {s : Store} {id : NodeId} {c : Cell} (hc : s.cell? id = some c) :
    (s.evaluateNext l id).2 = s.modify id fun _ => c.compile := by
  rw [← c.snd_evaluate l, evaluateNext, hc]

/-- Evaluating a store compiles some of its cells, one after the other. -/
theorem evaluate_keeps {P : Store → Prop} (root : NodeId)
    (hstep : ∀ s id c, P s → s.cell? id = some c → P (s.modify id fun _ => c.compile)) {s : Store} (hs : P s) :
    P (s.evaluate root).2 := by
  suffices h : ∀ (ids : List NodeId) (l : Ledger) (s : Store), P s →
      P (ids.foldl (fun p id => evaluateNext p.1 p.2 id) (l, s)).2 from h _ _ s hs
  intro ids
  induction ids with
  | nil => exact fun _ _ hs => hs
  | cons id ids ih =>
    intro l s hs
    have hnext : P (s.evaluateNext l id).2 := by
      rcases hc : s.cell? id with _ | c
      · have hsame : (s.evaluateNext l id).2 = s := by rw [evaluateNext, hc]
        rw [hsame]
        exact hs
      · rw [snd_evaluateNext l hc]
        exact hstep s id c hs hc
    exact ih _ _ hnext

end Store

namespace Graph

variable {g h : Graph}

/-! ### Members -/

theorem create_cases (g : Graph) (name : String) :
    (∃ id, g.store.freshId? = some id ∧
      g.create name = (id, { g with store := g.store.insert (.bare id name) })) ∨
    (g.store.freshId? = none ∧ g.create name = (⟨0⟩, g)) := by
  simp only [create, Store.create]
  rcases hid : g.store.freshId? with _ | id
  · exact Or.inr ⟨rfl, rfl⟩
  · exact Or.inl ⟨id, rfl, rfl⟩

theorem add_eq_ok {c : Cell} (hadd : g.add c = .ok h) :
    h = g ∨ c.id ∉ g.ids ∧ h = { g with store := g.store.insert c } := by
  unfold add at hadd
  split at hadd
  · split at hadd
    · exact Or.inl (Except.ok.inj hadd).symm
    · simp at hadd
  · rename_i hnone
    exact Or.inr ⟨Store.cell?_eq_none.1 hnone, (Except.ok.inj hadd).symm⟩

theorem remove_eq_ok {id : NodeId} {c : Cell} (hremove : g.remove id = .ok (c, h)) :
    id ≠ g.root ∧ ∃ d, g.cell? id = some d ∧ c = d.clearInputs ∧ h = { g with store := g.store.detach id } := by
  unfold remove at hremove
  split at hremove
  · simp at hremove
  · rename_i hid
    refine ⟨by simpa using hid, ?_⟩
    rcases hd : g.store.cell? id with _ | d
    · rw [Store.remove?_eq_none (Store.cell?_eq_none.1 hd)] at hremove
      simp at hremove
    · rw [Store.remove?_eq hd] at hremove
      obtain ⟨rfl, rfl⟩ := Prod.mk.inj (Except.ok.inj hremove)
      exact ⟨d, hd, rfl, rfl⟩

theorem map_remove_eq_ok {id : NodeId} (hremove : (g.remove id).map (·.2) = .ok h) :
    id ≠ g.root ∧ h = { g with store := g.store.detach id } := by
  rcases hr : g.remove id with e | ⟨c, h'⟩
  · rw [hr] at hremove
    nomatch hremove
  · rw [hr] at hremove
    obtain ⟨hid, -, -, -, hh⟩ := remove_eq_ok hr
    exact ⟨hid, (Except.ok.inj hremove).symm.trans hh⟩

/-! ### Edges -/

theorem canConnect_iff {a b : NodeId} : g.canConnect a b = true ↔
    a ≠ g.root ∧ a ∈ g.ids ∧ b ∈ g.ids ∧ (b = g.root → g.inputs g.root = []) ∧ b ∉ g.targets a ∧
      g.store.isComplete (g.store.sortWith (some (a, b))) = true := by
  simp only [canConnect, Bool.and_eq_true, bne_iff_ne, ne_eq, contains, Store.contains_iff, Bool.or_eq_true,
    List.isEmpty_iff, isConnected, Bool.not_eq_true', Bool.eq_false_iff, Store.hasEdge_iff, ids, targets, and_assoc,
    Decidable.imp_iff_not_or]

/-! ### Cleaning -/

/-- A sweep takes out cells other than the root that feed nothing, one after the other. -/
theorem sweep_keeps {P : Store → Prop} (root : NodeId)
    (hstep : ∀ s id, P s → id ≠ root → id ∈ s.ids → s.targets id = [] → P (s.detach id)) {s : Store} (hs : P s)
    (work removed : List NodeId) : P (sweep root s work removed).2 := by
  fun_induction sweep root s work removed with
  | case1 s removed => exact hs
  | case2 s removed id work hskip ih => exact ih hs
  | case3 s removed id work hskip hnone ih => exact ih hs
  | case4 s removed id work hskip c t hremove hsize found ih =>
    have hid : id ∈ s.ids := by
      by_contra hid
      rw [Store.remove?_eq_none hid] at hremove
      simp at hremove
    obtain ⟨d, hd⟩ := Store.mem_ids_iff.1 hid
    rw [Store.remove?_eq hd] at hremove
    obtain ⟨-, rfl⟩ := Prod.mk.inj (Option.some.inj hremove)
    simp only [Bool.or_eq_true, beq_iff_eq, Bool.not_eq_true', not_or, Bool.not_eq_false, List.isEmpty_iff] at hskip
    exact ih (hstep s id hs hskip.1 hid hskip.2)

end Graph

/-! ### Restoring -/

namespace Document

theorem insertCells_keeps {P : Store → Prop} (hstep : ∀ (s : Store) (r : Record), P s → P (s.insert r.toCell))
    {ids : List NodeId} {rs rest : List Record} {s t : Store} (hs : P s)
    (h : insertCells ids rs s = .ok (t, rest)) : P t := by
  induction ids generalizing rs rest s with
  | nil =>
    unfold insertCells at h
    split at h
    · obtain ⟨rfl, -⟩ := Prod.mk.inj (Except.ok.inj h)
      exact hs
    · simp at h
  | cons id ids ih =>
    unfold insertCells at h
    split at h
    · simp at h
    · rename_i r hr
      split at h
      · rename_i t' rest' hrest
        obtain ⟨rfl, -⟩ := Prod.mk.inj (Except.ok.inj h)
        exact ih (hstep s r hs) hrest
      · simp at h

theorem connectAll_keeps {P : Graph → Prop} (hstep : ∀ g a b, P g → P (g.connect a b))
    {edges : List (NodeId × NodeId)} {g h : Graph} (hg : P g) (hconnect : connectAll edges g = .ok h) : P h := by
  induction edges generalizing g with
  | nil => exact Except.ok.inj hconnect ▸ hg
  | cons e edges ih =>
    obtain ⟨a, b⟩ := e
    simp only [connectAll] at hconnect
    split at hconnect
    · exact ih (hstep g a b hg) hconnect
    · simp at hconnect

theorem orderInputs_keeps {P : Graph → Prop}
    (hstep : ∀ (g : Graph) (r : Record), P g → r.inputs.Perm (g.inputs r.id) →
      P (g.modify r.id fun c => c.setInputs r.inputs))
    {rs : List Record} {g h : Graph} (hg : P g) (horder : orderInputs rs g = .ok h) : P h := by
  induction rs generalizing g with
  | nil => exact Except.ok.inj horder ▸ hg
  | cons r rs ih =>
    simp only [orderInputs] at horder
    split at horder
    · rename_i hperm
      exact ih (hstep g r hg (List.isPerm_iff.1 hperm)) horder
    · simp at horder

/-- The stages of a document that becomes a graph. -/
theorem toGraph_eq_ok {config : Config} {d : Document} {h : Graph} (hgraph : d.toGraph config = .ok h) :
    ∃ root ts edges store records g, d.edges = (root, ts) :: edges ∧ describedTwice? d.nodes [] = none ∧
      insertCells (d.edges.map (·.1)) d.nodes .empty = .ok (store, records) ∧
      connectAll d.edgeList ⟨store, root, config⟩ = .ok g ∧ orderInputs records g = .ok h := by
  unfold toGraph at hgraph
  split at hgraph
  · simp at hgraph
  · simp at hgraph
  · rename_i root ts edges htwice hedges
    split at hgraph
    · simp at hgraph
    · rename_i store records hinsert
      split at hgraph
      · simp at hgraph
      · rename_i g hconnect
        exact ⟨root, ts, edges, store, records, g, hedges, htwice, hinsert, hconnect, hgraph⟩

end Document

end CellGraph
