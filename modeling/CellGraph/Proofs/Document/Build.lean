import CellGraph.Proofs.Document.Edges
import CellGraph.Proofs.Document.Record

/-!
# The stages of restoring

A document becomes a graph in stages: its records are put into the order of its ids and their cells into a store
(`insertCells_eq_ok_iff`), its edges are added one after the other (`Grown.connectAll`), and the inputs are brought into
the order of the records (`orderInputs_eq_ok_iff`).  A document is restored exactly if every stage succeeds, and then
the graph is what the last one makes of it (`toGraph_eq_ok_iff`).
-/

namespace CellGraph

namespace Document

/-! ### Placing the records -/

/-- Cells of records in a store, one after the other. -/
def insertAll (rs : List Record) (s : Store) : Store := rs.foldl (fun s r => s.insert r.toCell) s

/-- The records are placed exactly if the ids are theirs, and then their cells are inserted in that order. -/
theorem insertCells_eq_ok_iff {ids : List NodeId} {rs rest : List Record} {s t : Store}
    (hnodup : (rs.map (·.id)).Nodup) :
    insertCells ids rs s = .ok (t, rest) ↔ rest.map (·.id) = ids ∧ rest.Perm rs ∧ t = insertAll rest s := by
  induction ids generalizing rs rest s with
  | nil =>
    cases rs with
    | nil =>
      simp only [insertCells, Except.ok.injEq, Prod.mk.injEq, List.map_eq_nil_iff, List.perm_nil]
      constructor
      · rintro ⟨rfl, rfl⟩
        exact ⟨rfl, rfl, rfl⟩
      · rintro ⟨rfl, -, rfl⟩
        exact ⟨rfl, rfl⟩
    | cons r rs =>
      simp only [insertCells, reduceCtorEq, List.map_eq_nil_iff, false_iff, not_and]
      rintro rfl hperm
      exact absurd hperm.length_eq (by simp)
  | cons id ids ih =>
    rw [insertCells]
    split
    · rename_i hfind
      simp only [reduceCtorEq, false_iff, not_and]
      intro hids hperm
      obtain ⟨q, rest, rfl, hq, -⟩ := List.map_eq_cons_iff.1 hids
      have hnone := List.find?_eq_none.1 hfind q (hperm.subset (List.mem_cons_self ..))
      exact absurd hq (by simpa using hnone)
    · rename_i r hfind
      have hperm := perm_cons_eraseP_of_find? hfind
      have hid : r.id = id := by simpa using List.find?_some hfind
      have hnodup' : ((rs.eraseP (·.id == id)).map (·.id)).Nodup :=
        (List.nodup_cons.1 ((hperm.map (·.id)).nodup_iff.1 hnodup)).2
      have hstep : ∀ rest', insertCells ids (rs.eraseP (·.id == id)) (s.insert r.toCell) = .ok (t, rest') ↔
          rest'.map (·.id) = ids ∧ rest'.Perm (rs.eraseP (·.id == id)) ∧ t = insertAll rest' (s.insert r.toCell) :=
        fun _ => ih hnodup'
      constructor
      · intro hok
        split at hok
        · rename_i t' rest' hrest
          obtain ⟨rfl, rfl⟩ := Prod.mk.inj (Except.ok.inj hok)
          obtain ⟨hids, hperm', rfl⟩ := (hstep rest').1 hrest
          exact ⟨by rw [List.map_cons, hids, hid], (hperm'.cons r).trans hperm.symm, rfl⟩
        · simp at hok
      · rintro ⟨hids, hperm', rfl⟩
        obtain ⟨q, rest', rfl, hq, hids'⟩ := List.map_eq_cons_iff.1 hids
        -- there is only one record with the id
        obtain rfl : q = r :=
          List.inj_on_of_nodup_map hnodup (hperm'.subset (List.mem_cons_self ..)) (List.mem_of_find?_eq_some hfind)
            (hq.trans hid.symm)
        have hrest := (hstep rest').2 ⟨hids', (hperm'.trans hperm).cons_inv, rfl⟩
        rw [hrest]

/-! ### The cells of the records -/

theorem ids_insertAll {rs : List Record} {s : Store} (h : (s.ids ++ rs.map (·.id)).Nodup) :
    (insertAll rs s).ids = s.ids ++ rs.map (·.id) := by
  induction rs generalizing s with
  | nil => exact (List.append_nil _).symm
  | cons r rs ih =>
    rw [List.map_cons] at h
    have hnew : r.toCell.id ∉ s.ids := by
      rw [r.id_toCell]
      exact fun hr => (List.nodup_append.1 h).2.2 _ hr _ (List.mem_cons_self ..) rfl
    have hids : (s.insert r.toCell).ids = s.ids ++ [r.id] := by rw [Store.ids_insert hnew, r.id_toCell]
    have hmore : (insertAll rs (s.insert r.toCell)).ids = (s.insert r.toCell).ids ++ rs.map (·.id) := by
      apply ih
      rwa [hids, List.append_assoc, List.singleton_append]
    rw [insertAll, List.foldl_cons, ← insertAll, hmore, hids, List.append_assoc, List.singleton_append, List.map_cons]

private theorem cell?_insertAll_of_not_mem {rs : List Record} {id : NodeId} (h : id ∉ rs.map (·.id)) (s : Store) :
    (insertAll rs s).cell? id = s.cell? id := by
  induction rs generalizing s with
  | nil => rfl
  | cons r rs ih =>
    rw [List.map_cons, List.mem_cons, not_or] at h
    have hne : id ≠ r.toCell.id := by
      rw [r.id_toCell]
      exact h.1
    rw [insertAll, List.foldl_cons, ← insertAll, ih h.2, Store.cell?_insert, if_neg hne]

theorem cell?_insertAll {rs : List Record} (h : (rs.map (·.id)).Nodup) {r : Record} (hr : r ∈ rs) (s : Store) :
    (insertAll rs s).cell? r.id = some r.toCell := by
  induction rs generalizing s with
  | nil => exact absurd hr List.not_mem_nil
  | cons q rs ih =>
    rw [List.map_cons, List.nodup_cons] at h
    rw [insertAll, List.foldl_cons, ← insertAll]
    rcases List.mem_cons.1 hr with rfl | hr
    · have hinputs : r.toCell.clearInputs = r.toCell := by
        rw [r.toCell_eq]
        rfl
      rw [cell?_insertAll_of_not_mem h.1, Store.cell?_insert, r.id_toCell, if_pos rfl, hinputs]
    · exact ih h.2 hr _

theorem nextId_insertAll (rs : List Record) (s : Store) :
    (insertAll rs s).nextId = (rs.map fun r => r.id.val.toNat + 1).foldl max s.nextId := by
  induction rs generalizing s with
  | nil => rfl
  | cons r rs ih =>
    have hnext : (s.insert r.toCell).nextId = max s.nextId (r.id.val.toNat + 1) := by
      show max s.nextId (r.toCell.id.val.toNat + 1) = _
      rw [r.id_toCell]
    rw [insertAll, List.foldl_cons, ← insertAll, ih, hnext, List.map_cons, List.foldl_cons]

theorem edgeless_insertAll (rs : List Record) {s : Store} (h : s.Edgeless) : (insertAll rs s).Edgeless := by
  induction rs generalizing s with
  | nil => exact h
  | cons r rs ih => exact ih (h.insert r.toCell)

/-! ### Ordering the inputs -/

/-- The inputs of records in a graph, one after the other. -/
def setInputs (rs : List Record) (g : Graph) : Graph :=
  rs.foldl (fun g r => g.modify r.id fun c => c.setInputs r.inputs) g

theorem inputs_modify_setInputs (g : Graph) (id i : NodeId) (is : List NodeId) :
    (g.modify id fun c => c.setInputs is).inputs i = if i = id ∧ i ∈ g.ids then is else g.inputs i :=
  Store.inputs_modify (g := fun _ => is) (fun _ => rfl) id i

/-- The inputs are ordered exactly if each record lists the inputs that its cell has. -/
theorem orderInputs_eq_ok_iff {rs : List Record} {g h : Graph} (hnodup : (rs.map (·.id)).Nodup) :
    orderInputs rs g = .ok h ↔ (∀ r ∈ rs, r.inputs.Perm (g.inputs r.id)) ∧ h = setInputs rs g := by
  induction rs generalizing g with
  | nil =>
    simp only [orderInputs, Except.ok.injEq, List.not_mem_nil, false_implies, implies_true, true_and]
    exact eq_comm
  | cons r rs ih =>
    rw [List.map_cons, List.nodup_cons] at hnodup
    have hrest : ∀ q ∈ rs, (g.modify r.id fun c => c.setInputs r.inputs).inputs q.id = g.inputs q.id := by
      intro q hq
      have hne : q.id ≠ r.id := fun he => hnodup.1 (he ▸ List.mem_map_of_mem hq)
      rw [inputs_modify_setInputs, if_neg fun h => hne h.1]
    rw [orderInputs, List.forall_mem_cons]
    by_cases hperm : r.inputs.Perm (g.inputs r.id)
    · rw [if_pos (List.isPerm_iff.2 hperm), ih hnodup.2]
      constructor
      · rintro ⟨hall, rfl⟩
        exact ⟨⟨hperm, fun q hq => hrest q hq ▸ hall q hq⟩, rfl⟩
      · rintro ⟨⟨-, hall⟩, rfl⟩
        exact ⟨fun q hq => (hrest q hq).symm ▸ hall q hq, rfl⟩
    · rw [if_neg fun h => hperm (List.isPerm_iff.1 h)]
      simp only [reduceCtorEq, false_iff, not_and]
      exact fun hall => absurd hall.1 hperm

theorem setInputs_cons (r : Record) (rs : List Record) (g : Graph) :
    setInputs (r :: rs) g = setInputs rs (g.modify r.id fun c => c.setInputs r.inputs) := rfl

/-- Setting inputs changes cells only. -/
theorem views_setInputs (rs : List Record) (g : Graph) :
    (setInputs rs g).root = g.root ∧ (setInputs rs g).config = g.config ∧
      (setInputs rs g).store.nextId = g.store.nextId ∧ (setInputs rs g).ids = g.ids ∧
      ∀ id, (setInputs rs g).targets id = g.targets id := by
  induction rs generalizing g with
  | nil => exact ⟨rfl, rfl, rfl, rfl, fun _ => rfl⟩
  | cons r rs ih =>
    obtain ⟨hroot, hconfig, hnext, hids, htargets⟩ := ih (g.modify r.id fun c => c.setInputs r.inputs)
    rw [setInputs_cons]
    exact ⟨hroot, hconfig, hnext, hids.trans (Store.ids_modify ..), htargets⟩

private theorem cell?_setInputs_of_not_mem {rs : List Record} {id : NodeId} (h : id ∉ rs.map (·.id)) (g : Graph) :
    (setInputs rs g).cell? id = g.cell? id := by
  induction rs generalizing g with
  | nil => rfl
  | cons r rs ih =>
    rw [List.map_cons, List.mem_cons, not_or] at h
    rw [setInputs_cons, ih h.2]
    exact (Store.cell?_modify ..).trans (if_neg h.1)

theorem cell?_setInputs {rs : List Record} (h : (rs.map (·.id)).Nodup) {r : Record} (hr : r ∈ rs) (g : Graph) :
    (setInputs rs g).cell? r.id = (g.cell? r.id).map fun c => c.setInputs r.inputs := by
  induction rs generalizing g with
  | nil => exact absurd hr List.not_mem_nil
  | cons q rs ih =>
    rw [List.map_cons, List.nodup_cons] at h
    rw [setInputs_cons]
    rcases List.mem_cons.1 hr with rfl | hr
    · rw [cell?_setInputs_of_not_mem h.1]
      exact (Store.cell?_modify ..).trans (if_pos rfl)
    · have hne : r.id ≠ q.id := fun he => h.1 (he ▸ List.mem_map_of_mem hr)
      rw [ih h.2 hr]
      exact congrArg _ ((Store.cell?_modify ..).trans (if_neg hne))

/-! ### All stages -/

/-- The graph of some records before it has edges. -/
def bareGraph (config : Config) (root : NodeId) (rs : List Record) : Graph := ⟨insertAll rs .empty, root, config⟩

/-- The cells of records are a graph to which no edge has been added. -/
theorem grown_bareGraph {config : Config} {root : NodeId} {rs : List Record} (hnodup : (rs.map (·.id)).Nodup)
    (hroot : (rs.map (·.id)).head? = some root) :
    Grown (bareGraph config root rs) [] (bareGraph config root rs) := by
  have hedgeless := edgeless_insertAll rs Store.edgeless_empty
  have hids : (insertAll rs .empty).ids = rs.map (·.id) := ids_insertAll (s := .empty) hnodup
  have hinputs : ∀ id, (bareGraph config root rs).inputs id = [] := hedgeless.inputs
  refine ⟨⟨hedgeless.wellFormed, ?_, hedgeless.targets _, ?_⟩, rfl, rfl, rfl, rfl, hedgeless.targets, fun id => ?_⟩
  · rw [Graph.ids, bareGraph, hids]
    exact hroot
  · rw [hinputs]
    exact Nat.zero_le 1
  · rw [hinputs]
    rcases hc : (bareGraph config root rs).cell? id with _ | c
    · rfl
    · have hid : id ∈ rs.map (·.id) := hids ▸ Store.mem_ids_iff.2 ⟨c, hc⟩
      obtain ⟨r, hr, rfl⟩ := List.mem_map.1 hid
      obtain rfl : r.toCell = c := Option.some.inj ((cell?_insertAll hnodup hr .empty).symm.trans hc)
      rw [Option.map_some, r.toCell_eq]
      rfl

/-- A document is restored exactly if each stage succeeds. -/
theorem toGraph_eq_ok_iff {config : Config} {d : Document} {h : Graph} : d.toGraph config = .ok h ↔
    ∃ root ts edges rs g, d.edges = (root, ts) :: edges ∧ (d.nodes.map (·.id)).Nodup ∧
      rs.map (·.id) = d.edges.map (·.1) ∧ rs.Perm d.nodes ∧
      connectAll d.edgeList (bareGraph config root rs) = .ok g ∧ (∀ r ∈ rs, r.inputs.Perm (g.inputs r.id)) ∧
      h = setInputs rs g := by
  constructor
  · intro hgraph
    obtain ⟨root, ts, edges, store, rs, g, hedges, htwice, hinsert, hconnect, horder⟩ := toGraph_eq_ok hgraph
    have hnodup := (describedTwice?_eq_none.1 htwice).1
    obtain ⟨hids, hperm, rfl⟩ := (insertCells_eq_ok_iff hnodup).1 hinsert
    obtain ⟨hinputs, rfl⟩ := (orderInputs_eq_ok_iff ((hperm.map (·.id)).nodup_iff.2 hnodup)).1 horder
    exact ⟨root, ts, edges, rs, g, hedges, hnodup, hids, hperm, hconnect, hinputs, rfl⟩
  · rintro ⟨root, ts, edges, rs, g, hedges, hnodup, hids, hperm, hconnect, hinputs, rfl⟩
    have htwice : describedTwice? d.nodes [] = none := describedTwice?_eq_none.2 ⟨hnodup, fun _ _ => List.not_mem_nil⟩
    have hinsert : insertCells (d.edges.map (·.1)) d.nodes .empty = .ok (insertAll rs .empty, rs) :=
      (insertCells_eq_ok_iff hnodup).2 ⟨hids, hperm, rfl⟩
    have horder : orderInputs rs g = .ok (setInputs rs g) :=
      (orderInputs_eq_ok_iff ((hperm.map (·.id)).nodup_iff.2 hnodup)).2 ⟨hinputs, rfl⟩
    unfold toGraph
    rw [htwice, hinsert]
    rw [bareGraph] at hconnect
    simp only [hedges, hconnect, horder]

end Document

end CellGraph
