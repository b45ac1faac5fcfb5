import CellGraph.Proofs.Store.Order

/-!
# A store after a change

What the views of a store (`ids`, `cell?`, `targets`, `inputs`) show after each of its operations.  An operation that
only changes how cells compute keeps the edges (`SameEdges`).
-/

namespace CellGraph

/-! ### Inputs of a cell -/

namespace Cell

theorem inputs_removeInput (c : Cell) (id : NodeId) : (c.removeInput id).inputs = c.inputs.erase id := by
  unfold removeInput
  split
  · rfl
  · rename_i h
    exact (List.erase_of_not_mem h).symm

theorem id_removeInput (c : Cell) (id : NodeId) : (c.removeInput id).id = c.id := by
  unfold removeInput
  split <;> rfl

/-- Taking inputs away leaves the id of a cell. -/
theorem id_iterate_removeInput (id : NodeId) (n : Nat) (c : Cell) :
    ((fun c : Cell => c.removeInput id)^[n] c).id = c.id := by
  induction n with
  | zero => rfl
  | succ n ih => rw [Function.iterate_succ_apply', id_removeInput, ih]

theorem inputs_clearInputs (c : Cell) : c.clearInputs.inputs = [] := by
  unfold clearInputs
  split
  · assumption
  · rfl

theorem id_clearInputs (c : Cell) : c.clearInputs.id = c.id := by
  unfold clearInputs
  split <;> rfl

end Cell

namespace Store

variable {s : Store}

/-! ### Looking up -/

theorem mem_ids_iff {id : NodeId} : id ∈ s.ids ↔ ∃ c, s.cell? id = some c := IdMap.mem_ids_iff

theorem contains_iff {id : NodeId} : s.contains id = true ↔ id ∈ s.ids := IdMap.contains_iff

theorem cell?_eq_none {id : NodeId} : s.cell? id = none ↔ id ∉ s.ids := IdMap.get?_eq_none

theorem inputs_of_cell? {id : NodeId} {c : Cell} (h : s.cell? id = some c) : s.inputs id = c.inputs := by
  rw [inputs, h]

theorem inputs_of_not_mem {id : NodeId} (h : id ∉ s.ids) : s.inputs id = [] := by
  rw [inputs, cell?_eq_none.2 h]

theorem targets_of_not_mem {id : NodeId} (h : id ∉ s.ids) : s.targets id = [] := by
  rw [List.eq_nil_iff_forall_not_mem]
  exact fun t ht => h (mem_ids_of_mem_targets ht)

theorem mem_ids_of_mem_inputs {a b : NodeId} (h : a ∈ s.inputs b) : b ∈ s.ids := by
  by_contra hb
  rw [inputs_of_not_mem hb] at h
  simp at h

/-- What is read off each cell, in the order of insertion. -/
theorem filterMap_entries {α : Type} (s : Store) (f : Cell → Option α) :
    s.cells.entries.filterMap (fun e => f e.2) = s.ids.filterMap fun id => (s.cell? id).bind f := by
  rw [ids, IdMap.ids, List.filterMap_map]
  apply List.filterMap_congr
  intro e he
  show f e.2 = (s.cells.get? e.1).bind f
  rw [IdMap.get?_of_mem_entries he, Option.bind_some]

/-- Target lists are known by the targets of the members. -/
theorem targetLists_ext {s t : Store} (hids : s.ids = t.ids) (h : ∀ id ∈ s.ids, s.targets id = t.targets id) :
    s.targetLists = t.targetLists := by
  have hkeys : s.targetLists.ids = t.targetLists.ids := by
    rw [s.ids_targetLists, t.ids_targetLists]
    exact hids
  refine IdMap.ext_get? hkeys fun id hid => ?_
  obtain ⟨ts, hts⟩ := IdMap.mem_ids_iff.1 hid
  obtain ⟨us, hus⟩ := IdMap.mem_ids_iff.1 (hkeys ▸ hid)
  rw [s.ids_targetLists] at hid
  have hsame := h id hid
  rw [targets, hts, targets, hus] at hsame
  rw [hts, hus]
  exact congrArg some hsame

/-- Two stores are the same if they have the same ids in the same order, the same cells and targets under each, and the
same number for the next id. -/
theorem ext_views {s t : Store} (hids : s.ids = t.ids) (hcell : ∀ id ∈ s.ids, s.cell? id = t.cell? id)
    (htargets : ∀ id ∈ s.ids, s.targets id = t.targets id) (hnext : s.nextId = t.nextId) : s = t := by
  have hcells : s.cells = t.cells := IdMap.ext_get? hids hcell
  have hlists : s.targetLists = t.targetLists := targetLists_ext hids htargets
  obtain ⟨cells, targetLists, nextId, hkeys⟩ := s
  obtain ⟨cells', targetLists', nextId', hkeys'⟩ := t
  obtain rfl : cells = cells' := hcells
  obtain rfl : targetLists = targetLists' := hlists
  obtain rfl : nextId = nextId' := hnext
  rfl

/-! ### Changing cells -/

@[simp]
theorem ids_modify (id : NodeId) (f : Cell → Cell) : (s.modify id f).ids = s.ids := IdMap.ids_modify ..

@[simp]
theorem targets_modify (id i : NodeId) (f : Cell → Cell) : (s.modify id f).targets i = s.targets i := rfl

theorem cell?_modify (id i : NodeId) (f : Cell → Cell) :
    (s.modify id f).cell? i = if i = id then (s.cell? i).map f else s.cell? i := IdMap.get?_modify ..

/-- A change that keeps the ids of cells puts no new cell in. -/
theorem exists_of_cell?_modify {f : Cell → Cell} (hf : ∀ c, (f c).id = c.id) {id i : NodeId} {c : Cell}
    (hc : (s.modify id f).cell? i = some c) : ∃ d, s.cell? i = some d ∧ c.id = d.id := by
  rw [cell?_modify] at hc
  split at hc
  · obtain ⟨d, hd, rfl⟩ := Option.map_eq_some_iff.1 hc
    exact ⟨d, hd, hf d⟩
  · exact ⟨c, hc, rfl⟩

theorem inputs_modify {f : Cell → Cell} {g : List NodeId → List NodeId} (hf : ∀ c, (f c).inputs = g c.inputs)
    (id i : NodeId) : (s.modify id f).inputs i = if i = id ∧ i ∈ s.ids then g (s.inputs i) else s.inputs i := by
  by_cases hi : i = id
  · subst hi
    by_cases hmem : i ∈ s.ids
    · obtain ⟨c, hc⟩ := mem_ids_iff.1 hmem
      have hnew : (s.modify i f).cell? i = some (f c) := by rw [cell?_modify, if_pos rfl, hc, Option.map_some]
      rw [inputs_of_cell? hnew, inputs_of_cell? hc, hf, if_pos ⟨rfl, hmem⟩]
    · rw [if_neg (fun h => hmem h.2), inputs_of_not_mem hmem, inputs_of_not_mem (by rwa [ids_modify])]
  · rw [if_neg (fun h => hi h.1), inputs, cell?_modify, if_neg hi]
    rfl

theorem inputs_modify_of_eq {id : NodeId} {f : Cell → Cell} (hf : ∀ c, s.cell? id = some c → (f c).inputs = c.inputs)
    (i : NodeId) : (s.modify id f).inputs i = s.inputs i := by
  rw [inputs, cell?_modify, inputs]
  by_cases hi : i = id
  · rw [if_pos hi]
    rcases hc : s.cell? i with _ | c
    · rfl
    · exact hf c (hi ▸ hc)
  · rw [if_neg hi]

@[simp]
theorem ids_map (f : Cell → Cell) : (s.map f).ids = s.ids := IdMap.ids_map ..

@[simp]
theorem targets_map (f : Cell → Cell) (id : NodeId) : (s.map f).targets id = s.targets id := rfl

theorem cell?_map (f : Cell → Cell) (id : NodeId) : (s.map f).cell? id = (s.cell? id).map f := IdMap.get?_map ..

theorem inputs_map_of_eq {f : Cell → Cell} (hf : ∀ c, (f c).inputs = c.inputs) (id : NodeId) :
    (s.map f).inputs id = s.inputs id := by
  rw [inputs, cell?_map, inputs]
  rcases s.cell? id with _ | c
  · rfl
  · exact hf c

/-! ### Changing targets -/

@[simp]
theorem ids_modifyTargets (id : NodeId) (f : List NodeId → List NodeId) : (s.modifyTargets id f).ids = s.ids := rfl

@[simp]
theorem cell?_modifyTargets (id i : NodeId) (f : List NodeId → List NodeId) :
    (s.modifyTargets id f).cell? i = s.cell? i := rfl

@[simp]
theorem inputs_modifyTargets (id i : NodeId) (f : List NodeId → List NodeId) :
    (s.modifyTargets id f).inputs i = s.inputs i := rfl

theorem targets_modifyTargets (id i : NodeId) (f : List NodeId → List NodeId) :
    (s.modifyTargets id f).targets i = if i = id ∧ i ∈ s.ids then f (s.targets i) else s.targets i := by
  have hmem : i ∈ s.ids ↔ i ∈ s.targetLists.ids := by
    rw [s.ids_targetLists]
    rfl
  unfold targets
  show ((s.targetLists.modify id f).get? i).getD [] = _
  rw [IdMap.get?_modify]
  by_cases hi : i = id
  · rw [if_pos hi]
    by_cases h : i ∈ s.ids
    · obtain ⟨ts, hts⟩ := IdMap.mem_ids_iff.1 (hmem.1 h)
      rw [if_pos ⟨hi, h⟩, hts]
      rfl
    · rw [if_neg (fun h' => h h'.2), IdMap.get?_eq_none.2 (fun h' => h (hmem.2 h'))]
      rfl
  · rw [if_neg hi, if_neg (fun h => hi h.1)]

/-! ### Edges -/

@[simp]
theorem ids_link (source target : NodeId) : (s.link source target).ids = s.ids := by
  rw [link, ids_modify, ids_modifyTargets]

theorem targets_link (source target i : NodeId) : (s.link source target).targets i =
    if i = source ∧ i ∈ s.ids then s.targets i ++ [target] else s.targets i := by
  rw [link, targets_modify, targets_modifyTargets]

theorem inputs_link (source target i : NodeId) : (s.link source target).inputs i =
    if i = target ∧ i ∈ s.ids then s.inputs i ++ [source] else s.inputs i := by
  rw [link, inputs_modify (g := fun is => is ++ [source]) (fun _ => rfl), inputs_modifyTargets, ids_modifyTargets]

theorem targets_link_of_mem {source : NodeId} (h : source ∈ s.ids) (target i : NodeId) :
    (s.link source target).targets i = if i = source then s.targets i ++ [target] else s.targets i := by
  rw [targets_link]
  by_cases hi : i = source
  · rw [if_pos ⟨hi, hi ▸ h⟩, if_pos hi]
  · rw [if_neg (fun hsource => hi hsource.1), if_neg hi]

theorem inputs_link_of_mem {target : NodeId} (h : target ∈ s.ids) (source i : NodeId) :
    (s.link source target).inputs i = if i = target then s.inputs i ++ [source] else s.inputs i := by
  rw [inputs_link]
  by_cases hi : i = target
  · rw [if_pos ⟨hi, hi ▸ h⟩, if_pos hi]
  · rw [if_neg (fun htarget => hi htarget.1), if_neg hi]

theorem exists_of_cell?_link {source target i : NodeId} {c : Cell} (hc : (s.link source target).cell? i = some c) :
    ∃ d, s.cell? i = some d ∧ c.id = d.id :=
  exists_of_cell?_modify (s := s.modifyTargets source _) (f := fun c => c.addInput source) (fun _ => rfl) hc

theorem hasEdge_iff {source target : NodeId} : s.hasEdge source target = true ↔ target ∈ s.targets source := by
  simp [hasEdge]

@[simp]
theorem ids_unlink (source target : NodeId) : (s.unlink source target).ids = s.ids := by
  unfold unlink
  split
  · rw [ids_modify, ids_modifyTargets]
  · rfl

theorem targets_unlink (source target i : NodeId) : (s.unlink source target).targets i =
    if i = source then (s.targets i).erase target else s.targets i := by
  unfold unlink
  split
  · rw [targets_modify, targets_modifyTargets]
    by_cases hi : i = source
    · rw [if_pos hi]
      split
      · rfl
      · rename_i hmem
        rw [targets_of_not_mem (fun h => hmem ⟨hi, h⟩)]
        rfl
    · rw [if_neg hi, if_neg (fun h => hi h.1)]
  · rename_i hedge
    rw [hasEdge_iff] at hedge
    split
    · rename_i hi
      rw [List.erase_of_not_mem (hi ▸ hedge)]
    · rfl

theorem inputs_unlink {source target : NodeId} (hedge : target ∈ s.targets source) (i : NodeId) :
    (s.unlink source target).inputs i = if i = target then (s.inputs i).erase source else s.inputs i := by
  rw [unlink, if_pos (hasEdge_iff.2 hedge),
    inputs_modify (g := fun is => is.erase source) (fun c => c.inputs_removeInput source), inputs_modifyTargets,
    ids_modifyTargets]
  by_cases hi : i = target
  · rw [if_pos hi]
    split
    · rfl
    · rename_i hmem
      rw [inputs_of_not_mem (fun h => hmem ⟨hi, h⟩)]
      rfl
  · rw [if_neg hi, if_neg (fun h => hi h.1)]

theorem unlink_of_not_mem {source target : NodeId} (hedge : target ∉ s.targets source) :
    s.unlink source target = s := by
  rw [unlink, if_neg (fun h => hedge (hasEdge_iff.1 h))]

theorem exists_of_cell?_unlink {source target i : NodeId} {c : Cell} (hc : (s.unlink source target).cell? i = some c) :
    ∃ d, s.cell? i = some d ∧ c.id = d.id := by
  unfold unlink at hc
  split at hc
  · exact exists_of_cell?_modify (s := s.modifyTargets source _) (fun c => c.id_removeInput source) hc
  · exact ⟨c, hc, rfl⟩

theorem sublist_targets_unlink (source target a : NodeId) :
    ((s.unlink source target).targets a).Sublist (s.targets a) := by
  rw [targets_unlink]
  split
  · exact List.erase_sublist
  · exact List.Sublist.refl _

@[simp]
theorem nextId_unlink (source target : NodeId) : (s.unlink source target).nextId = s.nextId := by
  unfold unlink
  split <;> rfl

/-! ### New members -/

theorem ids_insert {c : Cell} (h : c.id ∉ s.ids) : (s.insert c).ids = s.ids ++ [c.id] :=
  (IdMap.ids_insert ..).trans (if_neg h)

theorem ids_insert_of_mem {c : Cell} (h : c.id ∈ s.ids) : (s.insert c).ids = s.ids :=
  (IdMap.ids_insert ..).trans (if_pos h)

theorem mem_ids_insert {c : Cell} {i : NodeId} : i ∈ (s.insert c).ids ↔ i = c.id ∨ i ∈ s.ids := by
  show i ∈ (s.cells.insert c.id c.clearInputs).ids ↔ i = c.id ∨ i ∈ s.cells.ids
  rw [IdMap.ids_insert]
  split
  · rename_i h
    exact ⟨Or.inr, fun hi => hi.elim (fun hi => hi ▸ h) fun hi => hi⟩
  · rw [List.mem_append, List.mem_singleton, or_comm]

theorem cell?_insert (c : Cell) (i : NodeId) :
    (s.insert c).cell? i = if i = c.id then some c.clearInputs else s.cell? i := IdMap.get?_insert ..

theorem targets_insert (c : Cell) (i : NodeId) :
    (s.insert c).targets i = if i = c.id then [] else s.targets i := by
  show ((s.targetLists.insert c.id []).get? i).getD [] = _
  rw [IdMap.get?_insert]
  split <;> rfl

theorem inputs_insert (c : Cell) (i : NodeId) : (s.insert c).inputs i = if i = c.id then [] else s.inputs i := by
  unfold inputs
  rw [cell?_insert]
  by_cases hi : i = c.id
  · rw [if_pos hi, if_pos hi]
    exact c.inputs_clearInputs
  · rw [if_neg hi, if_neg hi]

/-- A new cell leaves the edges as they are: there is none at an id that is not a member. -/
theorem targets_insert_of_not_mem {c : Cell} (hc : c.id ∉ s.ids) (i : NodeId) :
    (s.insert c).targets i = s.targets i := by
  rw [targets_insert]
  split
  · rename_i hi
    rw [hi, targets_of_not_mem hc]
  · rfl

theorem inputs_insert_of_not_mem {c : Cell} (hc : c.id ∉ s.ids) (i : NodeId) : (s.insert c).inputs i = s.inputs i := by
  rw [inputs_insert]
  split
  · rename_i hi
    rw [hi, inputs_of_not_mem hc]
  · rfl

/-- A cell comes in under its own id. -/
theorem own_id_insert {i : NodeId} (h : ∀ c, s.cell? i = some c → c.id = i) (c d : Cell)
    (hd : (s.insert c).cell? i = some d) : d.id = i := by
  rw [cell?_insert] at hd
  split at hd
  · rename_i hi
    rw [← Option.some.inj hd, Cell.id_clearInputs, hi]
  · exact h d hd

theorem below_nextId_insert (h : ∀ id ∈ s.ids, id.val.toNat < s.nextId) (c : Cell) :
    ∀ id ∈ (s.insert c).ids, id.val.toNat < (s.insert c).nextId := by
  intro id hid
  show id.val.toNat < max s.nextId (c.id.val.toNat + 1)
  rcases mem_ids_insert.1 hid with rfl | hid
  · omega
  · have := h id hid
    omega

private theorem toNat_ofNat_of_lt {n : Nat} (h : n < UInt32.size) : (UInt32.ofNat n).toNat = n :=
  UInt32.toNat_ofNat_of_lt' h

/-- The id for a new cell is new. -/
theorem not_mem_ids_of_freshId? (hbelow : ∀ id ∈ s.ids, id.val.toNat < s.nextId) {id : NodeId}
    (h : s.freshId? = some id) : id ∉ s.ids := by
  unfold freshId? at h
  split at h
  · rename_i hlt
    obtain rfl := Option.some.inj h
    intro hmem
    have hid := hbelow _ hmem
    rw [toNat_ofNat_of_lt hlt] at hid
    omega
  · obtain ⟨n, hn, rfl⟩ := Option.map_eq_some_iff.1 h
    have hfree := List.find?_some hn
    rw [← contains_iff]
    simpa using hfree

/-! ### Taking a member out -/

theorem ids_drop (id : NodeId) : (s.drop id).ids = s.ids.filter (· != id) := IdMap.ids_erase ..

theorem cell?_drop (id i : NodeId) : (s.drop id).cell? i = if i = id then none else s.cell? i := IdMap.get?_erase ..

theorem targets_drop (id i : NodeId) : (s.drop id).targets i = if i = id then [] else s.targets i := by
  show ((s.targetLists.erase id).get? i).getD [] = _
  rw [IdMap.get?_erase]
  split <;> rfl

/-- The store without a cell and without the edges that are recorded for it. -/
def detach (s : Store) (id : NodeId) : Store :=
  (s.inputs id).foldl (fun s source => s.modifyTargets source fun ts => ts.filter (· != id))
    ((s.targets id).foldl (fun s target => s.modify target fun c => c.removeInput id) (s.drop id))

theorem remove?_eq {id : NodeId} {c : Cell} (hc : s.cell? id = some c) :
    s.remove? id = some (c.clearInputs, s.detach id) := by
  rw [remove?, hc, detach, inputs_of_cell? hc]

theorem remove?_eq_none {id : NodeId} (h : id ∉ s.ids) : s.remove? id = none := by
  rw [remove?, cell?_eq_none.2 h]

private theorem targets_foldl_modify (f : Cell → Cell) (ts : List NodeId) (s : Store) (i : NodeId) :
    (ts.foldl (fun s target => s.modify target f) s).targets i = s.targets i := by
  induction ts generalizing s with
  | nil => rfl
  | cons t ts ih => rw [List.foldl_cons, ih, targets_modify]

private theorem ids_foldl_modify (f : Cell → Cell) (ts : List NodeId) (s : Store) :
    (ts.foldl (fun s target => s.modify target f) s).ids = s.ids := by
  induction ts generalizing s with
  | nil => rfl
  | cons t ts ih => rw [List.foldl_cons, ih, ids_modify]

private theorem cell?_foldl_modify (f : Cell → Cell) (ts : List NodeId) (s : Store) (i : NodeId) :
    (ts.foldl (fun s target => s.modify target f) s).cell? i = (s.cell? i).map f^[ts.count i] := by
  induction ts generalizing s with
  | nil => simp
  | cons t ts ih =>
    rw [List.foldl_cons, ih, cell?_modify, List.count_cons]
    by_cases hi : i = t
    · subst hi
      rw [if_pos rfl, if_pos (by simp), Option.map_map, Function.iterate_succ]
    · rw [if_neg hi, if_neg (by simpa using Ne.symm hi), Nat.add_zero]

private theorem cell?_foldl_modifyTargets (f : List NodeId → List NodeId) (is : List NodeId) (s : Store) (i : NodeId) :
    (is.foldl (fun s source => s.modifyTargets source f) s).cell? i = s.cell? i := by
  induction is generalizing s with
  | nil => rfl
  | cons j is ih => rw [List.foldl_cons, ih, cell?_modifyTargets]

private theorem ids_foldl_modifyTargets (f : List NodeId → List NodeId) (is : List NodeId) (s : Store) :
    (is.foldl (fun s source => s.modifyTargets source f) s).ids = s.ids := by
  induction is generalizing s with
  | nil => rfl
  | cons j is ih => rw [List.foldl_cons, ih, ids_modifyTargets]

private theorem targets_foldl_filter (id : NodeId) (is : List NodeId) (s : Store) (i : NodeId) :
    (is.foldl (fun s source => s.modifyTargets source fun ts => ts.filter (· != id)) s).targets i =
      if i ∈ is then (s.targets i).filter (· != id) else s.targets i := by
  induction is generalizing s with
  | nil => simp
  | cons j is ih =>
    have hone : (s.modifyTargets j fun ts => ts.filter (· != id)).targets i =
        if i = j then (s.targets i).filter (· != id) else s.targets i := by
      rw [targets_modifyTargets]
      by_cases hi : i ∈ s.ids
      · simp [hi]
      · rw [targets_of_not_mem hi]
        simp
    rw [List.foldl_cons, ih, hone]
    by_cases hi : i = j
    · subst hi
      simp
    · simp [hi]

theorem ids_detach (id : NodeId) : (s.detach id).ids = s.ids.filter (· != id) := by
  rw [detach, ids_foldl_modifyTargets, ids_foldl_modify, ids_drop]

/-- One input goes for every edge from the cell that is taken out. -/
theorem cell?_detach (id i : NodeId) : (s.detach id).cell? i =
    if i = id then none else (s.cell? i).map (fun c => c.removeInput id)^[(s.targets id).count i] := by
  rw [detach, cell?_foldl_modifyTargets, cell?_foldl_modify, cell?_drop]
  split <;> simp

theorem exists_of_cell?_detach {id i : NodeId} {c : Cell} (hc : (s.detach id).cell? i = some c) :
    ∃ d, s.cell? i = some d ∧ c.id = d.id := by
  rw [cell?_detach] at hc
  split at hc
  · nomatch hc
  · obtain ⟨d, hd, rfl⟩ := Option.map_eq_some_iff.1 hc
    exact ⟨d, hd, d.id_iterate_removeInput id _⟩

theorem targets_detach (id i : NodeId) : (s.detach id).targets i =
    if i = id then [] else if i ∈ s.inputs id then (s.targets i).filter (· != id) else s.targets i := by
  rw [detach, targets_foldl_filter, targets_foldl_modify, targets_drop]
  by_cases hi : i = id
  · simp [hi]
  · simp [hi]

@[simp]
theorem nextId_detach (id : NodeId) : (s.detach id).nextId = s.nextId := by
  have hmodify : ∀ (ts : List NodeId) (s : Store),
      (ts.foldl (fun s target => s.modify target fun c => c.removeInput id) s).nextId = s.nextId := by
    intro ts
    induction ts with
    | nil => exact fun _ => rfl
    | cons t ts ih => exact fun s => ih _
  have htargets : ∀ (is : List NodeId) (s : Store),
      (is.foldl (fun s source => s.modifyTargets source fun ts => ts.filter (· != id)) s).nextId = s.nextId := by
    intro is
    induction is with
    | nil => exact fun _ => rfl
    | cons i is ih => exact fun s => ih _
  rw [detach, htargets, hmodify]
  rfl

theorem sublist_targets_detach (id a : NodeId) : ((s.detach id).targets a).Sublist (s.targets a) := by
  rw [targets_detach]
  split
  · exact List.nil_sublist _
  · split
    · exact List.filter_sublist
    · exact List.Sublist.refl _

end Store

end CellGraph
