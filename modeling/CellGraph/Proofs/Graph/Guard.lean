import CellGraph.Proofs.Graph.Connect
import CellGraph.Proofs.Graph.Programs
import CellGraph.Proofs.Store.Pruning
import CellGraph.Proofs.Store.Schedule

/-!
# The guard against cycles

Who puts cells in the place of others can make the inputs say anything, and then a removal leaves targets behind that
are no members, and a later cell under such an id is fed by edges that nobody added.  The guard against cycles rests on
the targets alone, and these are changed by the graph only: every operation takes edges away but `Graph.connect`, which
sorts the cells along the targets first.  So no cycle is ever closed (`Guarded`, `Assigned.guarded`), the order has
every member, and all loops end.
-/

namespace CellGraph

open Relation (ReflTransGen TransGen)

/-! ### Ids for new cells -/

namespace Store

variable {s : Store}

/-- Of the first ids, one more than there are members, one is free. -/
theorem exists_le_not_mem_ids (hsmall : s.size < UInt32.size) :
    ∃ n ≤ s.size, (⟨.ofNat n⟩ : NodeId) ∉ s.ids := by
  by_contra hnone
  have hnodup : ((List.range (s.size + 1)).map fun n => (⟨.ofNat n⟩ : NodeId)).Nodup := by
    refine List.Nodup.map_on ?_ List.nodup_range
    intro m hm n hn hmn
    have hval := congrArg (fun id : NodeId => id.val.toNat) hmn
    rw [List.mem_range] at hm hn
    simp only [UInt32.toNat_ofNat_of_lt' (Nat.lt_of_lt_of_le hm hsmall),
      UInt32.toNat_ofNat_of_lt' (Nat.lt_of_lt_of_le hn hsmall)] at hval
    exact hval
  have hsub : ((List.range (s.size + 1)).map fun n => (⟨.ofNat n⟩ : NodeId)) ⊆ s.ids := by
    intro id hid
    obtain ⟨n, hn, rfl⟩ := List.mem_map.1 hid
    by_contra hnew
    exact hnone ⟨n, Nat.lt_succ_iff.1 (List.mem_range.1 hn), hnew⟩
  have hlen := (List.subperm_of_subset hnodup hsub).length_le
  have hsize : s.ids.length = s.size := IdMap.length_ids ..
  rw [List.length_map, List.length_range, hsize] at hlen
  omega

/-- There is an id for a new cell as long as some id is free. -/
theorem exists_freshId? {free : NodeId} (hfree : free ∉ s.ids) : ∃ id, s.freshId? = some id := by
  obtain ⟨n, hn, hnew⟩ : ∃ n < min (s.size + 1) UInt32.size, (⟨.ofNat n⟩ : NodeId) ∉ s.ids := by
    rcases Nat.lt_or_ge s.size UInt32.size with hsmall | hfull
    · obtain ⟨n, hn, hnew⟩ := exists_le_not_mem_ids hsmall
      exact ⟨n, by omega, hnew⟩
    · have hlt : free.val.toNat < UInt32.size := free.val.toNat_lt
      exact ⟨free.val.toNat, by omega, by rwa [UInt32.ofNat_toNat]⟩
  unfold freshId?
  split
  · exact ⟨_, rfl⟩
  · rw [← Option.isSome_iff_exists, Option.isSome_map, List.find?_isSome]
    refine ⟨n, List.mem_range.2 hn, ?_⟩
    rw [Bool.not_eq_true', Bool.eq_false_iff]
    exact fun hcontains => hnew (contains_iff.1 hcontains)

end Store

/-! ### Ledgers -/

/-- If every id of the order had its turn, every id has an outcome. -/
theorem Ledger.contains_of_mem {l : Ledger} (h : l.outcomes.length = l.order.length) {id : NodeId}
    (hid : id ∈ l.order) : l.contains id = true := by
  have hfound : (l.order.findIdx? (· == id)).isSome = true := by
    rw [List.findIdx?_isSome]
    exact List.any_eq_true.2 ⟨id, hid, beq_self_eq_true id⟩
  obtain ⟨i, hi⟩ := Option.isSome_iff_exists.1 hfound
  obtain ⟨hlt, -⟩ := List.findIdx?_eq_some_iff_getElem.1 hi
  rw [Ledger.contains, Ledger.outcome?, hi, Option.bind_some, List.getElem?_eq_getElem (by omega)]
  rfl

namespace Store

private theorem fst_evaluateNext (l : Ledger) (s : Store) (id : NodeId) :
    ∃ o, (s.evaluateNext l id).1 = l.record o := by
  rw [evaluateNext]
  split
  · exact ⟨_, rfl⟩
  · exact ⟨_, rfl⟩

private theorem order_evaluateAll (ids : List NodeId) (l : Ledger) (s : Store) :
    (ids.foldl (fun p id => evaluateNext p.1 p.2 id) (l, s)).1.order = l.order ∧
      (ids.foldl (fun p id => evaluateNext p.1 p.2 id) (l, s)).1.outcomes.length = l.outcomes.length + ids.length := by
  induction ids generalizing l s with
  | nil => exact ⟨rfl, rfl⟩
  | cons id ids ih =>
    obtain ⟨o, ho⟩ := fst_evaluateNext l s id
    obtain ⟨horder, hlength⟩ := ih (s.evaluateNext l id).1 (s.evaluateNext l id).2
    refine ⟨horder.trans (by rw [ho]; rfl), hlength.trans ?_⟩
    rw [ho, Ledger.record, List.length_append, List.length_singleton, List.length_cons]
    omega

/-- Evaluating a store gives every id of the schedule its turn. -/
theorem order_evaluate (s : Store) (root : NodeId) :
    (s.evaluate root).1.order = s.schedule root ∧
      (s.evaluate root).1.outcomes.length = (s.schedule root).length := by
  obtain ⟨horder, hlength⟩ := order_evaluateAll (s.schedule root) (.ofOrder (s.schedule root)) s
  exact ⟨horder, hlength.trans (Nat.zero_add _)⟩

end Store

namespace Graph

/-! ### What every change keeps -/

/-- What is left of the shape of a graph when cells can be put in the place of others.  The inputs do not occur in
it. -/
structure Guarded (g : Graph) : Prop where
  acyclic : ∀ id, ¬ TransGen (fun a b => b ∈ g.targets a) id id
  root_mem : g.root ∈ g.ids
  root_targets : g.targets g.root = []
  below_nextId : ∀ id ∈ g.ids, id.val.toNat < g.store.nextId

theorem WellFormed.guarded {g : Graph} (hg : g.WellFormed) : g.Guarded :=
  ⟨hg.store.acyclic, hg.root_mem, hg.root_targets, hg.store.below_nextId⟩

namespace Guarded

variable {g : Graph}

/-- A change that adds no edge and leaves the root in place. -/
theorem of_targets_subset (hg : g.Guarded) {s : Store} (htargets : ∀ id, s.targets id ⊆ g.targets id)
    (hroot : g.root ∈ s.ids) (hbelow : ∀ id ∈ s.ids, id.val.toNat < s.nextId) :
    ({ g with store := s }).Guarded := by
  refine ⟨fun id hcycle => hg.acyclic id (TransGen.mono (fun a b hab => htargets a hab) _ _ hcycle), hroot, ?_, hbelow⟩
  have hnone := htargets g.root
  rw [hg.root_targets, List.subset_nil] at hnone
  exact hnone

theorem insert (hg : g.Guarded) (c : Cell) : ({ g with store := g.store.insert c }).Guarded := by
  refine hg.of_targets_subset (fun id => ?_) (Store.mem_ids_insert.2 (Or.inr hg.root_mem))
    (Store.below_nextId_insert hg.below_nextId c)
  rw [Store.targets_insert]
  split
  · exact List.nil_subset _
  · exact List.Subset.refl _

theorem detach (hg : g.Guarded) {id : NodeId} (hid : id ≠ g.root) :
    ({ g with store := g.store.detach id }).Guarded := by
  refine hg.of_targets_subset (fun i => (Store.sublist_targets_detach id i).subset) ?_ fun i hi => ?_
  · rw [Store.ids_detach, List.mem_filter]
    exact ⟨hg.root_mem, by simpa using hid.symm⟩
  · rw [Store.ids_detach] at hi
    rw [Store.nextId_detach]
    exact hg.below_nextId i (List.mem_filter.1 hi).1

/-- The test for an edge looks at the targets only, so it is right whatever the inputs say. -/
theorem connect (hg : g.Guarded) (a b : NodeId) : (g.connect a b).Guarded := by
  unfold Graph.connect
  split
  · rename_i hcan
    obtain ⟨ha, hmem, -, -, -, hcomplete⟩ := canConnect_iff.1 hcan
    have hextra : ∀ e ∈ some (a, b), e.1 ∈ g.store.ids := by
      rintro e ⟨⟩
      exact hmem
    refine ⟨?_, ?_, ?_, ?_⟩
    · simp only [targets, Store.targets_link_eq_targetsWith hmem]
      exact (Store.isComplete_sortWith_iff hextra).1 hcomplete
    · rw [ids, Store.ids_link]
      exact hg.root_mem
    · rw [targets, Store.targets_link_of_mem hmem, if_neg ha.symm]
      exact hg.root_targets
    · rw [ids, Store.ids_link]
      exact hg.below_nextId
  · exact hg

theorem disconnect (hg : g.Guarded) (a b : NodeId) : (g.disconnect a b).Guarded := by
  refine hg.of_targets_subset (fun id => (Store.sublist_targets_unlink a b id).subset) ?_ fun id hid => ?_
  · rw [Store.ids_unlink]
    exact hg.root_mem
  · rw [Store.ids_unlink] at hid
    rw [Store.nextId_unlink]
    exact hg.below_nextId id hid

/-- Changing a cell, in whatever way, leaves the targets as they are. -/
theorem modify (hg : g.Guarded) (id : NodeId) (f : Cell → Cell) : (g.modify id f).Guarded := by
  refine hg.of_targets_subset (fun _ => List.Subset.refl _) ?_ fun i hi => ?_
  · rw [Store.ids_modify]
    exact hg.root_mem
  · rw [Store.ids_modify] at hi
    exact hg.below_nextId i hi

theorem map (hg : g.Guarded) (f : Cell → Cell) : ({ g with store := g.store.map f }).Guarded := by
  refine hg.of_targets_subset (fun _ => List.Subset.refl _) ?_ fun i hi => ?_
  · rw [Store.ids_map]
    exact hg.root_mem
  · rw [Store.ids_map] at hi
    exact hg.below_nextId i hi

end Guarded

theorem kept_guarded : Kept Guarded where
  create _ hg _ := hg.insert _
  insert hg _ _ := hg.insert _
  detach hg hid := hg.detach hid
  connect source target hg := hg.connect source target
  disconnect source target hg := hg.disconnect source target
  modify hg _ := hg.modify _ _
  map hg _ := hg.map _
  toGraph hgraph := (wellFormed_toGraph hgraph).guarded

theorem Assigned.guarded {g : Graph} (hg : g.Assigned) : g.Guarded := by
  induction hg with
  | new config => exact (wellFormed_ofConfig config).guarded
  | call call _ hadd ih => exact kept_guarded.apply ih call hadd
  | assign id _ _ ih => exact ih.modify id _

/-! ### Loops -/

/-- All loops over a graph end in what the operations give, whatever its edges and inputs are.  The loop that prunes a
graph does so in whatever order the target lists are gone through. -/
structure LoopsEnd (g : Graph) : Prop where
  sort : ∃ p, Ends (Peeling.next? g.targets) (.start g.ids (g.store.indegrees none)) p ∧ p.taken.reverse = g.order
  prune : ∀ entries, entries.Perm g.store.targetLists.entries →
    ∃ p, Ends (Store.Pruning.next? g.root (Store.sourcesAlong entries)) (.start g.store g.root) p ∧
      ∀ id, id ∈ p.alive ↔ id ∈ g.store.contributing g.root
  clean : ∃ s removed, Ends (Sweeping.next? g.root) ⟨g.store, g.orphans.reverse, []⟩ ⟨s, [], removed⟩ ∧
    g.clean = (removed.reverse, { g with store := s.map fun c => c.invalidate.compile })
  walk : ∀ id, ∃ seen entries, Ends (Walking.next? g) ⟨[], [(id, [])], []⟩ ⟨seen, [], entries⟩ ∧
    entries.reverse = g.walk [] [(id, [])]

theorem loopsEnd (g : Graph) : g.LoopsEnd where
  sort := g.store.ends_sort
  prune _ hentries := Store.Pruning.ends g.store g.root fun _ _ => Store.mem_sourcesAlong hentries
  clean := by
    refine ⟨_, _, ends_sweep g.root g.store g.orphans.reverse [], ?_⟩
    rw [List.reverse_reverse]
    rfl
  walk id := by
    obtain ⟨seen, hends⟩ := g.ends_walk [] [(id, [])] []
    rw [List.append_nil] at hends
    exact ⟨seen, _, hends, List.reverse_reverse _⟩

/-! ### The guard -/

/-- Whatever cells were put in the place of others: cells and target lists have the same ids in the same order, the
targets close no cycle, the order has every member once, and the root is a member that feeds nothing.  A new cell gets
an id of its own as long as one is free.  All loops end, and in the ledger every id of the order is a member with an
outcome. -/
theorem Assigned.survives {g : Graph} (hg : g.Assigned) :
    g.store.targetLists.ids = g.store.cells.ids ∧
    (∀ id, ¬ TransGen (fun a b => b ∈ g.targets a) id id) ∧
    (g.order.Nodup ∧ ∀ id, id ∈ g.order ↔ id ∈ g.ids) ∧
    (g.root ∈ g.ids ∧ g.targets g.root = []) ∧
    (∀ name, (∃ free, free ∉ g.ids) → (g.create name).1 ∉ g.ids) ∧
    g.LoopsEnd ∧
    (g.evaluate.1.outcomes.length = g.evaluate.1.order.length ∧
      ∀ id ∈ g.evaluate.1.order, id ∈ g.ids ∧ g.evaluate.1.contains id = true) := by
  have hguarded := hg.guarded
  have hcreate : ∀ name, (∃ free, free ∉ g.ids) → (g.create name).1 ∉ g.ids := by
    rintro name ⟨free, hfree⟩
    obtain ⟨id, hid⟩ := Store.exists_freshId? hfree
    rcases g.create_cases name with ⟨id', hid', hcreated⟩ | ⟨hnone, -⟩
    · rw [hcreated]
      exact Store.not_mem_ids_of_freshId? hguarded.below_nextId hid'
    · rw [hid] at hnone
      nomatch hnone
  obtain ⟨horder, hlength⟩ := g.store.order_evaluate g.root
  change g.evaluate.1.order = _ at horder
  change g.evaluate.1.outcomes.length = _ at hlength
  have hall : g.evaluate.1.outcomes.length = g.evaluate.1.order.length := by rw [hlength, horder]
  refine ⟨g.store.ids_targetLists, hguarded.acyclic,
    ⟨Store.WellFormed.nodup_sort g.store, fun id => Store.WellFormed.mem_sort_of_acyclic hguarded.acyclic⟩,
    ⟨hguarded.root_mem, hguarded.root_targets⟩, hcreate, g.loopsEnd, hall, fun id hid => ?_⟩
  refine ⟨?_, Ledger.contains_of_mem hall hid⟩
  rw [horder] at hid
  exact Store.WellFormed.mem_ids_of_mem_sort (List.mem_filter.1 hid).1

/-- A cell is put in the place of one that another feeds and is taken out, so that its inputs do not tell of the edge.
The edge is still there when a cell comes back under the id.  Then the source of the edge becomes an input of itself. -/
theorem survives_of_readmitted :
    let g := initial.applyAll [.create "a", .create "b", .connect ⟨2⟩ ⟨1⟩]
    let readmitted := (g.modify ⟨1⟩ fun _ => .bare ⟨9⟩ "c").applyAll [.remove ⟨1⟩, .add (.bare ⟨1⟩ "d")]
    let h := readmitted.modify ⟨2⟩ fun _ => (Cell.bare ⟨2⟩ "e").setInputs [⟨2⟩]
    h.targets ⟨2⟩ = [⟨1⟩] ∧ h.inputs ⟨1⟩ = [] ∧ h.inputs ⟨2⟩ = [⟨2⟩] ∧
      (∀ id, ¬ TransGen (fun a b => b ∈ h.targets a) id id) ∧ (h.order.Nodup ∧ ∀ id, id ∈ h.order ↔ id ∈ h.ids) ∧
      (h.create "f").1 ∉ h.ids ∧ h.LoopsEnd := by
  intro g readmitted h
  have hbare : (initial.applyAll [.create "a", .create "b"]).Reachable :=
    (Reachable.new .standard).applyAll (Call.reachable_of_not_adds rfl)
  have hpath : ¬ ReflTransGen (fun x y => y ∈ (initial.applyAll [.create "a", .create "b"]).targets x) ⟨1⟩ ⟨2⟩ := by
    intro hpath
    rcases hpath.cases_head with heq | ⟨next, hedge, -⟩
    · exact absurd heq (by decide)
    · exact absurd hedge (List.not_mem_nil (a := next))
  have hlink := hbare.wellFormed.connect_of_accepts
    ⟨by decide, by decide, by decide, fun hroot => absurd hroot (by decide), by decide, hpath⟩
  change g = _ at hlink
  have hg : g.Reachable := (Reachable.new .standard).applyAll (Call.reachable_of_not_adds rfl)
  have hadd : ∀ call ∈ [Call.remove ⟨1⟩, .add (.bare ⟨1⟩ "d")], ∀ c, call = .add c → c.Reachable := by
    intro call hcall c hc
    rcases List.mem_pair.1 hcall with rfl | rfl
    · nomatch hc
    · exact Call.add.inj hc ▸ .bare ⟨1⟩ "d"
  have hreadmitted : readmitted.Assigned := (Assigned.assign ⟨1⟩ hg.assigned (.bare ⟨9⟩ "c")).applyAll hadd
  have hh : h.Assigned := .assign ⟨2⟩ hreadmitted (.setInputs [⟨2⟩] (.bare ⟨2⟩ "e"))
  obtain ⟨-, hacyclic, horder, -, hcreate, hloops, -⟩ := Assigned.survives hh
  have hids : h.ids = [⟨0⟩, ⟨2⟩, ⟨1⟩] := by
    simp only [h, readmitted, hlink]
    rfl
  have htargets : h.targets ⟨2⟩ = [⟨1⟩] := by
    simp only [h, readmitted, hlink]
    rfl
  have hinputs : h.inputs ⟨1⟩ = [] := by
    simp only [h, readmitted, hlink]
    rfl
  have hinputs' : h.inputs ⟨2⟩ = [⟨2⟩] := by
    simp only [h, readmitted, hlink]
    rfl
  exact ⟨htargets, hinputs, hinputs', hacyclic, horder, hcreate "f" ⟨⟨7⟩, by rw [hids]; decide⟩, hloops⟩

end Graph

end CellGraph
