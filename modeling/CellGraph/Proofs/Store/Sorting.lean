import CellGraph.Proofs.Graph.Loops
import CellGraph.Proofs.Store.Restriction
import CellGraph.Proofs.Store.Schedule

/-!
# Sorting any store

A store has no policy, so its edges can close cycles, be there twice or lead to ids that are no members.  The last are no
matter for paths and cycles, since nothing leads on from there (`path_iff`, `cycle_iff`).  Sorting such a store ends, and
lists the members that no cycle leads to, each after the members that feed it (`sort_exact`).  An order depends on nothing
but the members and their targets (`sortWith_congr`), so an edge can be tried out in it before it is added
(`sortWith_eq_sort_link`).
-/

namespace CellGraph.Store

open Relation (ReflTransGen TransGen)

variable {s : Store}

/-- An edge between members. -/
structure Edge (s : Store) (a b : NodeId) : Prop where
  source : a ∈ s.ids
  target : b ∈ s.ids
  recorded : b ∈ s.targets a

/-- The start of a path to a member is a member. -/
private theorem mem_ids_of_path {a b : NodeId} (hb : b ∈ s.ids) (h : ReflTransGen (fun a b => b ∈ s.targets a) a b) :
    a ∈ s.ids := by
  rcases h.cases_head with rfl | ⟨next, hedge, -⟩
  · exact hb
  · exact mem_ids_of_mem_targets hedge

/-- A path to a member goes through members only. -/
theorem path_iff {a b : NodeId} (hb : b ∈ s.ids) :
    ReflTransGen s.Edge a b ↔ ReflTransGen (fun a b => b ∈ s.targets a) a b := by
  constructor
  · exact fun h => ReflTransGen.mono (fun _ _ hedge => hedge.recorded) _ _ h
  · intro h
    induction h using ReflTransGen.head_induction_on with
    | refl => exact .refl
    | head hedge hpath ih => exact .head ⟨mem_ids_of_mem_targets hedge, mem_ids_of_path hb hpath, hedge⟩ ih

/-- A cycle goes through members only. -/
theorem cycle_iff {c : NodeId} : TransGen s.Edge c c ↔ TransGen (fun a b => b ∈ s.targets a) c c := by
  constructor
  · exact fun h => TransGen.mono (fun _ _ hedge => hedge.recorded) _ _ h
  · intro h
    obtain ⟨next, hedge, hpath⟩ := TransGen.head'_iff.1 h
    have hc : c ∈ s.ids := mem_ids_of_mem_targets hedge
    exact TransGen.head' ⟨hc, mem_ids_of_path hc hpath, hedge⟩ ((path_iff hc).2 hpath)

/-- Sorting a store ends, whatever its edges are.  The order has no id twice and has exactly the members that are neither
on a cycle nor reached from one, each after the members that feed it.  So it is complete exactly if the edges between
members close no cycle. -/
theorem sort_exact (s : Store) :
    (∃ p, Ends (Peeling.next? s.targets) (.start s.ids (s.indegrees none)) p ∧ p.taken.reverse = s.sort) ∧
    s.sort.Nodup ∧
    (∀ id, id ∈ s.sort ↔ id ∈ s.ids ∧ ∀ c, TransGen s.Edge c c → ¬ ReflTransGen s.Edge c id) ∧
    (∀ earlier id later, s.sort = earlier ++ id :: later → ∀ source, s.Edge source id → source ∈ earlier) ∧
    (s.isComplete s.sort = true ↔ ∀ c, ¬ TransGen s.Edge c c) := by
  have hpeeled : Peeled s.ids s.targets (fun _ => 0) s.sort := WellFormed.peeled_sort s
  refine ⟨s.ends_sort, hpeeled.nodup, fun id => ?_, fun earlier id later hsplit source hedge => ?_, ?_⟩
  · rw [hpeeled.mem_iff (fun _ _ => mem_ids_of_mem_targets) fun _ => rfl]
    refine and_congr_right fun hid => forall_congr' fun c => ?_
    rw [cycle_iff, path_iff hid]
  · exact hpeeled.ordered earlier id later hsplit source hedge.source hedge.recorded
  · have hextra : ∀ e ∈ (none : Option (NodeId × NodeId)), e.1 ∈ s.ids := nofun
    simp only [cycle_iff]
    exact isComplete_sortWith_iff hextra

/-! ### An edge that is tried out -/

/-- An order depends on nothing but the members and their targets. -/
theorem sortWith_congr {t : Store} {extra extra' : Option (NodeId × NodeId)} (hextra : ∀ e ∈ extra, e.1 ∈ s.ids)
    (hextra' : ∀ e ∈ extra', e.1 ∈ t.ids) (hids : t.ids = s.ids)
    (htargets : ∀ id, t.targetsWith extra' id = s.targetsWith extra id) : t.sortWith extra' = s.sortWith extra := by
  have hsame : t.targetsWith extra' = s.targetsWith extra := funext htargets
  have hend := free_run_sortWith hextra'
  rw [hids, hsame] at hend
  rw [sortWith_eq_peel, sortWith_eq_peel, hids, hsame]
  refine Peeling.peel_congr (fun id => ?_) (free_run_sortWith hextra) hend
  rw [getElem?_indegrees hextra, getElem?_indegrees hextra', hids, hsame]

/-- The order in which an edge from a member is tried out is the order once it is added, also if the edge is there
already, leads from a member to itself, closes a cycle or leads to an id that is no member. -/
theorem sortWith_eq_sort_link {a : NodeId} (ha : a ∈ s.ids) (b : NodeId) :
    s.sortWith (some (a, b)) = (s.link a b).sort := by
  have hextra : ∀ e ∈ some (a, b), e.1 ∈ s.ids := by
    rintro e ⟨⟩
    exact ha
  have hnone : ∀ e ∈ (none : Option (NodeId × NodeId)), e.1 ∈ (s.link a b).ids := nofun
  exact (sortWith_congr hextra hnone (ids_link a b) fun id => targets_link_eq_targetsWith ha b id).symm

/-- Edges from the first of two members, which feeds the second one: once more to that one, to itself, and to an id that
is no member. -/
theorem sortWith_eq_sort_link_of_parallel :
    let s := ((empty.insert (.bare ⟨0⟩ "a")).insert (.bare ⟨1⟩ "b")).link ⟨0⟩ ⟨1⟩
    ⟨0⟩ ∈ s.ids ∧ s.targets ⟨0⟩ = [⟨1⟩] ∧ s.sortWith (some (⟨0⟩, ⟨1⟩)) = (s.link ⟨0⟩ ⟨1⟩).sort ∧
      s.sortWith (some (⟨0⟩, ⟨0⟩)) = (s.link ⟨0⟩ ⟨0⟩).sort ∧ s.sortWith (some (⟨0⟩, ⟨7⟩)) = (s.link ⟨0⟩ ⟨7⟩).sort := by
  intro s
  have hmem : ⟨0⟩ ∈ s.ids := by decide
  exact ⟨hmem, by decide, sortWith_eq_sort_link hmem ⟨1⟩, sortWith_eq_sort_link hmem ⟨0⟩, sortWith_eq_sort_link hmem ⟨7⟩⟩

end CellGraph.Store
