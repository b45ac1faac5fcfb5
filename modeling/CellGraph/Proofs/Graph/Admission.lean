import CellGraph.Proofs.Document.Restore
import CellGraph.Proofs.Graph.Guard

/-!
# Ids for new cells

A graph admits an id when a cell comes in under it.  The number for the next id is the first one above all ids that were
admitted since the graph was new or was last restored (`Counted`), whether their cells are still there or not; one lemma
says which id a call admits and what that does to the number (`Call.grows`).  So a new cell gets an id above all of
them, and a cell that was taken out can come back at any time, until the last id of 32 bits is admitted.  From then on a
new cell gets the lowest id that is free, for which the ids are searched one after the other (`Store.probe?`).
-/

namespace CellGraph

/-- The last id there is. -/
def NodeId.last : NodeId := ⟨4294967295⟩

/-! ### The id for a new cell -/

namespace Store

variable {s : Store} {id : NodeId}

theorem freshId?_of_lt (h : s.nextId < UInt32.size) : s.freshId? = some ⟨.ofNat s.nextId⟩ := if_pos h

/-- Once the numbers are spent, every id below the one for a new cell has a cell. -/
theorem mem_ids_of_lt_freshId? (hspent : UInt32.size ≤ s.nextId) (h : s.freshId? = some id) {i : NodeId}
    (hi : i.val < id.val) : i ∈ s.ids := by
  rw [freshId?, if_neg (Nat.not_lt.2 hspent)] at h
  obtain ⟨n, hn, rfl⟩ := Option.map_eq_some_iff.1 h
  obtain ⟨-, hmem, hbelow⟩ := List.find?_range_eq_some.1 hn
  have hlt : i.val.toNat < n := by
    have hval : i.val.toNat < (UInt32.ofNat n).toNat := UInt32.lt_iff_toNat_lt.1 hi
    have hsize : n < UInt32.size := by
      have := List.mem_range.1 hmem
      omega
    rwa [UInt32.toNat_ofNat_of_lt' hsize] at hval
  have htaken := hbelow i.val.toNat hlt
  rw [UInt32.ofNat_toNat] at htaken
  exact contains_iff.1 (by simpa using htaken)

/-- One turn of the search for an id that is free: an id that a cell has is left for the next one, and the last id for
the first one. -/
def probe? (s : Store) (id : NodeId) : Option NodeId := if s.contains id then some ⟨id.val + 1⟩ else none

/-- The search ends at the lowest id that is free. -/
theorem ends_probe (hfree : id ∉ s.ids) (hbelow : ∀ i : NodeId, i.val < id.val → i ∈ s.ids) :
    Ends s.probe? ⟨0⟩ id := by
  -- by induction on the number of turns that are left, from the last one back to the start
  have hturns : ∀ n ≤ id.val.toNat, Ends s.probe? ⟨.ofNat (id.val.toNat - n)⟩ id := by
    intro n hn
    induction n with
    | zero =>
      rw [Nat.sub_zero, UInt32.ofNat_toNat]
      exact .here (if_neg fun hcontains => hfree (contains_iff.1 hcontains))
    | succ n ih =>
      have htaken : (⟨.ofNat (id.val.toNat - (n + 1))⟩ : NodeId) ∈ s.ids := by
        apply hbelow
        have hsize : id.val.toNat < UInt32.size := id.val.toNat_lt
        rw [UInt32.lt_iff_toNat_lt, UInt32.toNat_ofNat_of_lt' (by omega)]
        omega
      have hnext : UInt32.ofNat (id.val.toNat - n) = UInt32.ofNat (id.val.toNat - (n + 1)) + 1 := by
        rw [← UInt32.ofNat_one, ← UInt32.ofNat_add]
        congr 1
        omega
      refine .turn (if_pos (contains_iff.2 htaken)) ?_
      rw [← hnext]
      exact ih (by omega)
  have hstart := hturns id.val.toNat (Nat.le_refl _)
  rwa [Nat.sub_self] at hstart

end Store

namespace Graph

variable {g h : Graph} {admitted : Set NodeId}

/-! ### Admitting ids -/

/-- Whether a call puts another graph in the place of the present one. -/
def Call.restores : Call → Graph → Bool
  | .restore d, g => (g.restore d).isOk
  | .read text, g => (g.read text).isOk
  | .readBytes bytes, g => (g.readBytes bytes).isOk
  | _, _ => false

/-- The ids that were admitted since a graph was new or was last restored, after one more call. -/
def Call.admittedAfter (call : Call) (g : Graph) (admitted : Set NodeId) : Set NodeId :=
  {id | id ∈ (call.apply g).ids ∨ call.restores g = false ∧ id ∈ admitted}

/-- The ids that were admitted since a graph was new or was last restored, after several more calls. -/
def admittedAfterAll (g : Graph) : List Call → Set NodeId → Set NodeId
  | [], admitted => admitted
  | call :: calls, admitted => (call.apply g).admittedAfterAll calls (call.admittedAfter g admitted)

/-- A graph that comes about by calls, with the ids that were admitted since it was new or was last restored. -/
inductive HasAdmitted : Graph → Set NodeId → Prop
  | new (config : Config) : HasAdmitted (.ofConfig config) {id | id ∈ (ofConfig config).ids}
  | call {g : Graph} {admitted : Set NodeId} (call : Call) : g.HasAdmitted admitted →
    (∀ c, call = .add c → c.Reachable) → (call.apply g).HasAdmitted (call.admittedAfter g admitted)

theorem Reachable.exists_hasAdmitted (hg : g.Reachable) : ∃ admitted, g.HasAdmitted admitted := by
  induction hg with
  | new config => exact ⟨_, .new config⟩
  | call call _ hadd ih =>
    obtain ⟨admitted, hadmitted⟩ := ih
    exact ⟨_, .call call hadmitted hadd⟩

/-- The id under which a call brings in a cell. -/
def Call.newId? : Call → Graph → Option NodeId
  | .create _, g => g.store.freshId?
  | .add c, g => if g.contains c.id then none else some c.id
  | _, _ => none

/-- How members and the number for the next id change: either no cell comes in, or one does under an id, and the number
is above that id then. -/
inductive Grows (g h : Graph) : Option NodeId → Prop
  | kept : h.ids ⊆ g.ids → h.store.nextId = g.store.nextId → Grows g h none
  | grown {id : NodeId} : (∀ i, i ∈ h.ids ↔ i = id ∨ i ∈ g.ids) →
    h.store.nextId = max g.store.nextId (id.val.toNat + 1) → Grows g h (some id)

private theorem Grows.of_ids (hids : h.ids = g.ids) (hnext : h.store.nextId = g.store.nextId) : Grows g h none :=
  .kept (hids ▸ List.Subset.refl _) hnext

private theorem Grows.refl (g : Graph) : Grows g g none := .of_ids rfl rfl

private theorem Grows.insert (g : Graph) (c : Cell) : Grows g { g with store := g.store.insert c } (some c.id) :=
  .grown (fun _ => Store.mem_ids_insert) rfl

private theorem Grows.detach (g : Graph) (id : NodeId) : Grows g { g with store := g.store.detach id } none := by
  refine .kept ?_ (Store.nextId_detach id)
  rw [ids, Store.ids_detach]
  exact List.filter_subset_self _

private theorem Grows.evaluate (g : Graph) : Grows g g.evaluate.2 none := by
  refine Store.evaluate_keeps (P := fun s => Grows g { g with store := s } none) g.root ?_ (.refl g)
  rintro s id c ⟨hsub, hnext⟩ -
  exact .kept (by rwa [ids, Store.ids_modify]) hnext

private theorem Grows.clean (g : Graph) : Grows g g.clean.2 none := by
  have hsweep : Grows g { g with store := (sweep g.root g.store g.orphans.reverse []).2 } none := by
    refine sweep_keeps (P := fun s => Grows g { g with store := s } none) g.root ?_ (.refl g) _ _
    rintro s id ⟨hsub, hnext⟩ - - -
    obtain ⟨hsub', hnext'⟩ := Grows.detach { g with store := s } id
    exact .kept (List.Subset.trans hsub' hsub) (hnext'.trans hnext)
  obtain ⟨hsub, hnext⟩ := hsweep
  exact .kept (by rwa [Graph.clean, ids, Store.ids_map]) hnext

/-- A call that fails to restore a graph, or does not try, admits one id at most. -/
theorem Call.grows (call : Call) (g : Graph) (hstays : call.restores g = false) :
    Grows g (call.apply g) (call.newId? g) := by
  have hfailed {ε : Type} {r : Except ε Graph} (hr : r.isOk = false) : Grows g (g.orSelf r) none := by
    rcases r with e | h
    · exact .refl g
    · nomatch hr
  cases call with
  | create name =>
    rw [Call.apply, newId?]
    rcases g.create_cases name with ⟨id, hid, h⟩ | ⟨hid, h⟩
    · rw [h, hid]
      exact .insert g (.bare id name)
    · rw [h, hid]
      exact .refl g
  | add c =>
    rw [Call.apply, newId?, Graph.add, contains]
    rcases hc : g.cell? c.id with _ | present
    · have hfree : g.store.contains c.id = false := by
        rw [Bool.eq_false_iff, ne_eq, Store.contains_iff]
        exact Store.cell?_eq_none.1 hc
      rw [hfree]
      exact .insert g c
    · have htaken : g.store.contains c.id = true := Store.contains_iff.2 (Store.mem_ids_iff.2 ⟨present, hc⟩)
      rw [htaken]
      dsimp only
      split
      · exact .refl g
      · exact .refl g
  | remove id =>
    refine orSelf_keeps (P := fun h => Grows g h none) (.refl g) fun h hok => ?_
    obtain ⟨-, rfl⟩ := map_remove_eq_ok hok
    exact .detach g id
  | connect source target =>
    rw [Call.apply, Graph.connect]
    split
    · exact .of_ids (Store.ids_link source target) rfl
    · exact .refl g
  | disconnect source target =>
    exact .of_ids (Store.ids_unlink source target) (Store.nextId_unlink source target)
  | clean => exact .clean g
  | evaluate => exact .evaluate g
  | diagnostics => exact .of_ids (Store.ids_map _) rfl
  | trace id => exact .evaluate g
  | restore d =>
    rw [Call.apply_restore]
    exact hfailed hstays
  | read text =>
    rw [Call.apply_read]
    exact hfailed hstays
  | readBytes bytes =>
    rw [Call.apply_readBytes]
    exact hfailed hstays
  | onCell id call => exact .of_ids (Store.ids_modify id _) rfl

/-- A call that restores a graph gives what a document describes. -/
theorem Call.toGraph_of_restores {call : Call} (h : call.restores g = true) :
    ∃ d : Document, d.toGraph g.config = .ok (call.apply g) := by
  have hok {ε : Type} {r : Except ε Graph} (hr : r.isOk = true) : r = .ok (g.orSelf r) := by
    rcases r with e | h
    · nomatch hr
    · rfl
  cases call with
  | restore d =>
    rw [Call.apply_restore]
    exact ⟨d, (g.restore_eq d).symm.trans (hok h)⟩
  | read text =>
    rw [Call.apply_read]
    exact exists_toGraph_of_read (hok h)
  | readBytes bytes =>
    rw [Call.apply_readBytes]
    exact exists_toGraph_of_readBytes (hok h)
  | _ => nomatch h

/-! ### The number for the next id -/

/-- The members of a graph were admitted, and the number for the next id is the first one above all ids that were. -/
structure Counted (g : Graph) (admitted : Set NodeId) : Prop where
  members : ∀ id ∈ g.ids, id ∈ admitted
  below : ∀ id ∈ admitted, id.val.toNat < g.store.nextId
  reached : ∃ id ∈ admitted, g.store.nextId = id.val.toNat + 1

namespace Counted

theorem toGraph {config : Config} {d : Document} (hgraph : d.toGraph config = .ok h) :
    h.Counted {id | id ∈ h.ids} := by
  have hwell := wellFormed_toGraph hgraph
  refine ⟨fun _ hid => hid, hwell.store.below_nextId, ?_⟩
  obtain ⟨rest, hids⟩ := List.head?_eq_some_iff.1 hwell.root_first
  have hnext := (Document.describes_of_toGraph hgraph).nextId
  have hmem : h.store.nextId ∈ h.ids.map fun id => id.val.toNat + 1 := by
    refine List.max?_mem ?_
    rw [hnext, hids, List.map_cons, List.max?_cons', List.foldl_cons, Nat.zero_max]
  obtain ⟨id, hid, heq⟩ := List.mem_map.1 hmem
  exact ⟨id, hid, heq.symm⟩

/-- The numbers are spent exactly if the last id was admitted. -/
theorem last_mem_iff (hg : g.Counted admitted) : NodeId.last ∈ admitted ↔ UInt32.size ≤ g.store.nextId := by
  constructor
  · exact fun hlast => hg.below _ hlast
  · intro hspent
    obtain ⟨id, hid, hnext⟩ := hg.reached
    have hlt : id.val.toNat < UInt32.size := id.val.toNat_lt
    have hsize : UInt32.size = NodeId.last.val.toNat + 1 := rfl
    have hval : id.val = NodeId.last.val := UInt32.toNat_inj.1 (by omega)
    have hlast : id = NodeId.last := congrArg NodeId.mk hval
    exact hlast ▸ hid

theorem grows (hg : g.Counted admitted) {new : Option NodeId} (hh : Grows g h new) :
    h.Counted {id | id ∈ h.ids ∨ id ∈ admitted} := by
  cases hh with
  | kept hids hnext =>
    obtain ⟨last, hlast, hreached⟩ := hg.reached
    refine ⟨fun _ hid => Or.inl hid, ?_, last, Or.inr hlast, hnext.trans hreached⟩
    rintro id (hid | hid)
    · exact hnext ▸ hg.below id (hg.members id (hids hid))
    · exact hnext ▸ hg.below id hid
  | @grown new hids hnext =>
    refine ⟨fun _ hid => Or.inl hid, ?_, ?_⟩
    · have hold : ∀ id ∈ admitted, id.val.toNat < h.store.nextId :=
        fun id hid => hnext ▸ Nat.lt_of_lt_of_le (hg.below id hid) (Nat.le_max_left _ _)
      rintro id (hid | hid)
      · rcases (hids id).1 hid with rfl | hid
        · exact hnext ▸ Nat.lt_of_lt_of_le (Nat.lt_succ_self _) (Nat.le_max_right _ _)
        · exact hold id (hg.members id hid)
      · exact hold id hid
    · rcases Nat.le_total g.store.nextId (new.val.toNat + 1) with hle | hle
      · exact ⟨new, Or.inl ((hids new).2 (Or.inl rfl)), hnext.trans (Nat.max_eq_right hle)⟩
      · obtain ⟨last, hlast, hreached⟩ := hg.reached
        exact ⟨last, Or.inr hlast, (hnext.trans (Nat.max_eq_left hle)).trans hreached⟩

theorem call (hg : g.Counted admitted) (call : Call) : (call.apply g).Counted (call.admittedAfter g admitted) := by
  rcases hstays : call.restores g with _ | _
  · have hset : call.admittedAfter g admitted = {id | id ∈ (call.apply g).ids ∨ id ∈ admitted} := by
      simp [Call.admittedAfter, hstays]
    rw [hset]
    exact hg.grows (call.grows g hstays)
  · have hset : call.admittedAfter g admitted = {id | id ∈ (call.apply g).ids} := by
      simp [Call.admittedAfter, hstays]
    obtain ⟨d, hgraph⟩ := Call.toGraph_of_restores hstays
    rw [hset]
    exact toGraph hgraph

end Counted

theorem Counted.applyAll (hg : g.Counted admitted) (calls : List Call) :
    (g.applyAll calls).Counted (g.admittedAfterAll calls admitted) := by
  induction calls generalizing g admitted with
  | nil => exact hg
  | cons call calls ih => exact ih (hg.call call)

theorem HasAdmitted.counted (hg : g.HasAdmitted admitted) : g.Counted admitted := by
  induction hg with
  | new config =>
    exact ⟨fun _ hid => hid, (wellFormed_ofConfig config).store.below_nextId, ⟨0⟩, List.mem_singleton_self _, rfl⟩
  | call call _ _ ih => exact ih.call call

/-! ### Cells that come back -/

/-- Whether no call restores a graph, and no cell is added under an id.  Only cells that can come about are added. -/
def Spares (id : NodeId) : Graph → List Call → Prop
  | _, [] => True
  | g, call :: calls =>
    call.restores g = false ∧ (∀ c, call = .add c → c.Reachable ∧ c.id ≠ id) ∧ Spares id (call.apply g) calls

theorem Spares.reachable {id : NodeId} {calls : List Call} (hspares : Spares id g calls) (hg : g.Reachable) :
    (g.applyAll calls).Reachable := by
  induction calls generalizing g with
  | nil => exact hg
  | cons call calls ih =>
    obtain ⟨-, hadd, hrest⟩ := hspares
    exact ih hrest (hg.call call fun c hc => (hadd c hc).1)

/-- What was admitted stays so. -/
theorem Spares.subset_admittedAfterAll {id : NodeId} {calls : List Call} (hspares : Spares id g calls) :
    admitted ⊆ g.admittedAfterAll calls admitted := by
  induction calls generalizing g admitted with
  | nil => exact fun _ hi => hi
  | cons call calls ih =>
    obtain ⟨hstays, -, hrest⟩ := hspares
    exact fun i hi => ih hrest (Or.inr ⟨hstays, hi⟩)

/-- As long as the last id is not admitted, a call admits no id a second time, unless a cell is added under it. -/
theorem Counted.newId?_ne (hg : g.Counted admitted) (hlast : NodeId.last ∉ admitted) {id : NodeId} (hid : id ∈ admitted)
    {call : Call} (hadd : ∀ c, call = .add c → c.id ≠ id) : call.newId? g ≠ some id := by
  cases call with
  | create name =>
    have hlt : g.store.nextId < UInt32.size := Nat.lt_of_not_le fun hspent => hlast (hg.last_mem_iff.2 hspent)
    rw [Call.newId?, Store.freshId?_of_lt hlt]
    rintro ⟨⟩
    have hbelow := hg.below _ hid
    rw [UInt32.toNat_ofNat_of_lt' hlt] at hbelow
    exact Nat.lt_irrefl _ hbelow
  | add c =>
    rw [Call.newId?]
    split
    · nofun
    · exact fun heq => hadd c rfl (Option.some.inj heq)
  | _ => nofun

/-- No new cell gets an id that was admitted, also if its cell is gone, as long as the last id is not admitted. -/
theorem Counted.not_mem_ids (hg : g.Counted admitted) {id : NodeId} (hid : id ∈ admitted) (hgone : id ∉ g.ids)
    {calls : List Call} (hspares : Spares id g calls) (hlast : NodeId.last ∉ g.admittedAfterAll calls admitted) :
    id ∉ (g.applyAll calls).ids := by
  induction calls generalizing g admitted with
  | nil => exact hgone
  | cons call calls ih =>
    obtain ⟨hstays, hadd, hrest⟩ := hspares
    have hpresent : NodeId.last ∉ admitted := fun hmem => hlast (hrest.subset_admittedAfterAll (Or.inr ⟨hstays, hmem⟩))
    have hnew := hg.newId?_ne hpresent hid fun c hc => (hadd c hc).2
    have hgrows := call.grows g hstays
    refine ih (hg.call call) (Or.inr ⟨hstays, hid⟩) (fun hmem => ?_) hrest hlast
    generalize call.newId? g = new at hnew hgrows
    cases hgrows with
    | kept hids => exact hgone (hids hmem)
    | grown hids =>
      rcases (hids id).1 hmem with rfl | hmem
      · exact hnew rfl
      · exact hgone hmem

/-! ### Cells that come in -/

/-- A graph with one more cell, which comes last and has no edge.  All else is as it was. -/
structure Gains (g h : Graph) (c : Cell) : Prop where
  free : c.id ∉ g.ids
  ids : h.ids = g.ids ++ [c.id]
  cell : h.cell? c.id = some c
  inputs : h.inputs c.id = []
  targets : h.targets c.id = []
  apart : ∀ i, c.id ∉ h.targets i ∧ c.id ∉ h.inputs i
  others : ∀ i ≠ c.id, h.cell? i = g.cell? i ∧ h.targets i = g.targets i
  root : h.root = g.root
  config : h.config = g.config

theorem WellFormed.gains (hg : g.WellFormed) {c : Cell} (hfree : c.id ∉ g.ids) (hinputs : c.inputs = []) :
    g.Gains { g with store := g.store.insert c } c := by
  have hclear : c.clearInputs = c := by rw [Cell.clearInputs, hinputs]
  refine ⟨hfree, Store.ids_insert hfree, ?_, ?_, ?_, fun i => ⟨?_, ?_⟩, fun i hi => ⟨?_, ?_⟩, rfl, rfl⟩
  · rw [cell?, Store.cell?_insert, if_pos rfl, hclear]
  · rw [Graph.inputs, Store.inputs_insert, if_pos rfl]
  · rw [Graph.targets, Store.targets_insert, if_pos rfl]
  · rw [Graph.targets, Store.targets_insert]
    split
    · exact List.not_mem_nil
    · exact fun hedge => hfree (hg.store.mem_ids_of_edge hedge).2
  · rw [Graph.inputs, Store.inputs_insert]
    split
    · exact List.not_mem_nil
    · exact fun hedge => hfree (hg.store.mem_ids_of_edge ((hg.store.mirror c.id i).2 hedge)).1
  · rw [cell?, Store.cell?_insert, if_neg hi]
    rfl
  · rw [Graph.targets, Store.targets_insert, if_neg hi]
    rfl

/-- A cell that was taken out comes back after any calls that do not bring in another one under its id, as long as the
last id is not admitted. -/
theorem Counted.readmits (hcounted : g.Counted admitted) (hg : g.Reachable) {id : NodeId} {c : Cell}
    (hremove : g.remove id = .ok (c, h)) {calls : List Call} (hspares : Spares id h calls)
    (hlast : NodeId.last ∉ g.admittedAfterAll (.remove id :: calls) admitted) :
    ∃ k, (h.applyAll calls).add c = .ok k ∧ (h.applyAll calls).Gains k c := by
  have hcall : (Call.remove id).apply g = h := by
    rw [Call.apply, hremove]
    rfl
  obtain ⟨-, d, hd, rfl, hdetach⟩ := remove_eq_ok hremove
  have hid : d.clearInputs.id = id := d.id_clearInputs.trans (hg.wellFormed.store.own_id id d hd)
  have hgone : id ∉ h.ids := by
    rw [hdetach, ids, Store.ids_detach, List.mem_filter]
    simp
  have hremoved := hcounted.call (.remove id)
  have hadmitted : id ∈ (Call.remove id).admittedAfter g admitted :=
    Or.inr ⟨rfl, hcounted.members id (Store.mem_ids_iff.2 ⟨d, hd⟩)⟩
  rw [admittedAfterAll, hcall] at hlast
  rw [hcall] at hremoved
  have hfree : id ∉ (h.applyAll calls).ids := hremoved.not_mem_ids hadmitted hgone hspares hlast
  have hh : h.Reachable := hcall ▸ hg.call (.remove id) (by simp)
  have hadd : (h.applyAll calls).add d.clearInputs =
      .ok { h.applyAll calls with store := (h.applyAll calls).store.insert d.clearInputs } := by
    have hnone : (h.applyAll calls).cell? d.clearInputs.id = none := Store.cell?_eq_none.2 (hid ▸ hfree)
    rw [Graph.add, hnone]
  exact ⟨_, hadd, (hspares.reachable hh).wellFormed.gains (hid ▸ hfree) d.inputs_clearInputs⟩

/-- As long as an id is free, a new cell comes last, under an id that no cell has, and all else stays as it was.  Until
the last id is admitted that id is above all that were admitted since the graph was new or was last restored, and a cell
that was taken out can come back.  From then on it is the lowest id that is free, and the search for it ends. -/
theorem Reachable.create_exact (hg : g.Reachable) (hroom : g.size < UInt32.size) (name : String) :
    ∃ id h, g.create name = (id, h) ∧ g.Gains h (.bare id name) ∧ (∃ admitted, g.HasAdmitted admitted) ∧
      ∀ admitted, g.HasAdmitted admitted →
        (NodeId.last ∉ admitted →
          g.store.nextId < UInt32.size ∧ (∀ i ∈ admitted, i.val < id.val) ∧
          ∀ x c k, g.remove x = .ok (c, k) → ∀ calls, Spares x k calls →
            NodeId.last ∉ g.admittedAfterAll (.remove x :: calls) admitted →
            ∃ t, (k.applyAll calls).add c = .ok t ∧ (k.applyAll calls).Gains t c) ∧
        (NodeId.last ∈ admitted →
          UInt32.size ≤ g.store.nextId ∧ (∀ i : NodeId, i.val < id.val → i ∈ g.ids) ∧
          Ends g.store.probe? ⟨0⟩ id) := by
  have hwell := hg.wellFormed
  obtain ⟨n, -, hn⟩ := Store.exists_le_not_mem_ids hroom
  obtain ⟨id, hid⟩ := Store.exists_freshId? hn
  have hcreate : g.create name = (id, { g with store := g.store.insert (.bare id name) }) := by
    rcases g.create_cases name with ⟨id', hid', hcreate⟩ | ⟨hnone, -⟩
    · obtain rfl : id' = id := Option.some.inj (hid'.symm.trans hid)
      exact hcreate
    · exact nomatch hnone.symm.trans hid
  have hfree : id ∉ g.ids := Store.not_mem_ids_of_freshId? hwell.store.below_nextId hid
  refine ⟨id, _, hcreate, hwell.gains hfree rfl, hg.exists_hasAdmitted, fun admitted hadmitted => ?_⟩
  have hcounted := hadmitted.counted
  refine ⟨fun hlast => ?_, fun hlast => ?_⟩
  · have hlt : g.store.nextId < UInt32.size := Nat.lt_of_not_le fun hspent => hlast (hcounted.last_mem_iff.2 hspent)
    refine ⟨hlt, fun i hi => ?_, fun x c k hremove calls hspares hnever => hcounted.readmits hg hremove hspares hnever⟩
    obtain rfl : ⟨.ofNat g.store.nextId⟩ = id := Option.some.inj ((Store.freshId?_of_lt hlt).symm.trans hid)
    rw [UInt32.lt_iff_toNat_lt, UInt32.toNat_ofNat_of_lt' hlt]
    exact hcounted.below i hi
  · have hspent := hcounted.last_mem_iff.1 hlast
    have hbelow : ∀ i : NodeId, i.val < id.val → i ∈ g.ids := fun i hi => Store.mem_ids_of_lt_freshId? hspent hid hi
    exact ⟨hspent, hbelow, Store.ends_probe hfree hbelow⟩

/-- A cell is taken out, and it comes back after a new one, which gets the id after the others.  Once the last id is
admitted the id of a cell that is gone is given to a new one, also if the cell with the last id is gone. -/
theorem create_exact_of_removed :
    let g := initial.applyAll [.create "a", .create "b"]
    let spent := g.applyAll [.add (.bare .last "z"), .remove .last, .remove ⟨1⟩]
    (∃ h, g.create "c" = (⟨3⟩, h) ∧ g.Gains h (.bare ⟨3⟩ "c")) ∧
      (∃ c k t, g.remove ⟨1⟩ = .ok (c, k) ∧ (k.applyAll [.create "c"]).add c = .ok t ∧
        t.ids = [⟨0⟩, ⟨2⟩, ⟨3⟩, ⟨1⟩]) ∧
      (∃ h, spent.create "c" = (⟨1⟩, h) ∧ spent.Gains h (.bare ⟨1⟩ "c")) ∧ Ends spent.store.probe? ⟨0⟩ ⟨1⟩ := by
  intro g spent
  have hg : g.Reachable := (Reachable.new .standard).applyAll (Call.reachable_of_not_adds rfl)
  have hspent : spent.Reachable := by
    refine hg.applyAll ?_
    simp only [List.mem_cons, List.not_mem_nil, or_false]
    rintro call (rfl | rfl | rfl) c hc
    · exact Call.add.inj hc ▸ .bare .last "z"
    · nomatch hc
    · nomatch hc
  refine ⟨?_, ?_, ?_⟩
  · obtain ⟨id, h, hcreate, hgains, -⟩ := Reachable.create_exact hg (by decide) "c"
    have hid : (g.create "c").1 = ⟨3⟩ := rfl
    rw [hcreate] at hid
    obtain rfl : id = ⟨3⟩ := hid
    exact ⟨h, hcreate, hgains⟩
  · obtain ⟨id, h, -, -, ⟨admitted, hadmitted⟩, hall⟩ := Reachable.create_exact hg (by decide) "c"
    have hcounted := hadmitted.counted
    have hfew : NodeId.last ∉ admitted := fun hlast => absurd (hcounted.last_mem_iff.1 hlast) (by decide)
    have hnever : NodeId.last ∉ g.admittedAfterAll [.remove ⟨1⟩, .create "c"] admitted :=
      fun hlast => absurd ((hcounted.applyAll _).last_mem_iff.1 hlast) (by decide)
    obtain ⟨c, k, hremove, hc, hids⟩ : ∃ c k, g.remove ⟨1⟩ = .ok (c, k) ∧ c.id = ⟨1⟩ ∧
        (k.applyAll [.create "c"]).ids = [⟨0⟩, ⟨2⟩, ⟨3⟩] := ⟨_, _, rfl, rfl, rfl⟩
    have hspares : Spares ⟨1⟩ k [.create "c"] := ⟨rfl, (fun _ hadd => nomatch hadd), trivial⟩
    obtain ⟨t, hadd, ht⟩ := ((hall admitted hadmitted).1 hfew).2.2 ⟨1⟩ c k hremove _ hspares hnever
    exact ⟨c, k, t, hremove, hadd, by rw [ht.ids, hids, hc]; rfl⟩
  · obtain ⟨id, h, hcreate, hgains, ⟨admitted, hadmitted⟩, hall⟩ := Reachable.create_exact hspent (by decide) "c"
    have hid : (spent.create "c").1 = ⟨1⟩ := rfl
    rw [hcreate] at hid
    obtain rfl : id = ⟨1⟩ := hid
    have hlast : NodeId.last ∈ admitted := hadmitted.counted.last_mem_iff.2 (by decide)
    exact ⟨⟨h, hcreate, hgains⟩, ((hall admitted hadmitted).2 hlast).2.2⟩

end Graph

end CellGraph
