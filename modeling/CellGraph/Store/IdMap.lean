import CellGraph.NodeId

/-!
# Maps from ids

A map from ids to contents that keeps the order of insertion.  No id comes twice.  The key facts: what is under an id
after a change (`get?_modify`, `get?_insert`, `get?_erase`), and which ids there are then, in order (`ids_modify`,
`ids_insert`, `ids_erase`).  Both together make out a map (`ext_get?`).
-/

namespace CellGraph

/-- Contents under ids, in the order of insertion. -/
structure IdMap (α : Type) where
  entries : List (NodeId × α)
  nodup : (entries.map (·.1)).Nodup

namespace IdMap

variable {α β : Type}

def empty : IdMap α := ⟨[], List.nodup_nil⟩

def size (m : IdMap α) : Nat := m.entries.length

def ids (m : IdMap α) : List NodeId := m.entries.map (·.1)

def contains (m : IdMap α) (id : NodeId) : Bool := m.entries.any (·.1 == id)

def get? (m : IdMap α) (id : NodeId) : Option α := (m.entries.find? (·.1 == id)).map (·.2)

private theorem map_fst_modify (id : NodeId) (f : α → α) (es : List (NodeId × α)) :
    (es.map fun e => if e.1 == id then (e.1, f e.2) else e).map (·.1) = es.map (·.1) := by
  rw [List.map_map]
  apply List.map_congr_left
  intro e _
  show (if e.1 == id then (e.1, f e.2) else e).1 = e.1
  split <;> rfl

def modify (m : IdMap α) (id : NodeId) (f : α → α) : IdMap α where
  entries := m.entries.map fun e => if e.1 == id then (e.1, f e.2) else e
  nodup := by
    rw [map_fst_modify]
    exact m.nodup

def map (m : IdMap α) (f : α → β) : IdMap β where
  entries := m.entries.map fun e => (e.1, f e.2)
  nodup := by
    rw [List.map_map]
    exact m.nodup

private def insertEntry (id : NodeId) (a : α) : List (NodeId × α) → List (NodeId × α)
  | [] => [(id, a)]
  | e :: es => if e.1 == id then (id, a) :: es else e :: insertEntry id a es

private theorem map_fst_insertEntry (id : NodeId) (a : α) (es : List (NodeId × α)) :
    (insertEntry id a es).map (·.1) = if id ∈ es.map (·.1) then es.map (·.1) else es.map (·.1) ++ [id] := by
  induction es with
  | nil => simp [insertEntry]
  | cons e es ih =>
    unfold insertEntry
    by_cases he : e.1 = id
    · simp [he]
    · rw [if_neg (by simpa using he), List.map_cons, ih, List.map_cons]
      by_cases hid : id ∈ es.map (·.1)
      · rw [if_pos hid, if_pos (List.mem_cons_of_mem _ hid)]
      · rw [if_neg hid, if_neg (List.not_mem_cons_of_ne_of_not_mem (Ne.symm he) hid), List.cons_append]

/-- Puts something under an id.  A new id comes last; an id that is there keeps its place. -/
def insert (m : IdMap α) (id : NodeId) (a : α) : IdMap α where
  entries := insertEntry id a m.entries
  nodup := by
    rw [map_fst_insertEntry]
    split
    · exact m.nodup
    · rename_i hid
      rw [List.nodup_append]
      refine ⟨m.nodup, by simp, ?_⟩
      intro i hi j hj
      rw [List.mem_singleton] at hj
      rintro rfl
      exact hid (hj ▸ hi)

def erase (m : IdMap α) (id : NodeId) : IdMap α where
  entries := m.entries.filter (·.1 != id)
  nodup := List.Nodup.sublist (List.filter_sublist.map _) m.nodup

/-! ### The ids after a change -/

@[simp]
theorem ids_empty : (empty : IdMap α).ids = [] := rfl

@[simp]
theorem ids_modify (m : IdMap α) (id : NodeId) (f : α → α) : (m.modify id f).ids = m.ids :=
  map_fst_modify id f m.entries

@[simp]
theorem ids_map (m : IdMap α) (f : α → β) : (m.map f).ids = m.ids := by
  rw [ids, map, List.map_map]
  rfl

theorem ids_insert (m : IdMap α) (id : NodeId) (a : α) :
    (m.insert id a).ids = if id ∈ m.ids then m.ids else m.ids ++ [id] := map_fst_insertEntry id a m.entries

theorem ids_erase (m : IdMap α) (id : NodeId) : (m.erase id).ids = m.ids.filter (· != id) := by
  rw [ids, ids, erase, List.filter_map]
  rfl

@[simp]
theorem length_ids (m : IdMap α) : m.ids.length = m.size := List.length_map ..

@[simp]
theorem contains_iff {m : IdMap α} {id : NodeId} : m.contains id = true ↔ id ∈ m.ids := by
  simp [contains, ids]

/-- A map without one of its ids is smaller by one. -/
theorem size_erase {m : IdMap α} {id : NodeId} (h : id ∈ m.ids) : (m.erase id).size + 1 = m.size := by
  have hfilter : m.ids.filter (· != id) = m.ids.erase id := (List.Nodup.erase_eq_filter m.nodup id).symm
  rw [← length_ids, ids_erase, hfilter, ← length_ids]
  have hpos := List.length_pos_of_mem h
  have herase : (m.ids.erase id).length = m.ids.length - 1 := List.length_erase_of_mem h
  omega

/-! ### What is under an id after a change -/

@[simp]
theorem get?_empty (id : NodeId) : (empty : IdMap α).get? id = none := rfl

theorem get?_of_mem_entries {m : IdMap α} {id : NodeId} {a : α} (h : (id, a) ∈ m.entries) : m.get? id = some a := by
  obtain ⟨es, hnodup⟩ := m
  simp only [get?] at h ⊢
  induction es with
  | nil => simp at h
  | cons e es ih =>
    rw [List.map_cons, List.nodup_cons] at hnodup
    rcases List.mem_cons.1 h with rfl | h
    · simp
    · have hne : e.1 ≠ id := by
        rintro rfl
        exact hnodup.1 (List.mem_map.2 ⟨_, h, rfl⟩)
      rw [List.find?_cons_of_neg (by simpa using hne)]
      exact ih hnodup.2 h

theorem get?_eq_none {m : IdMap α} {id : NodeId} : m.get? id = none ↔ id ∉ m.ids := by
  simp only [get?, ids, Option.map_eq_none_iff, List.find?_eq_none, List.mem_map, not_exists, not_and, beq_iff_eq]

theorem mem_ids_iff {m : IdMap α} {id : NodeId} : id ∈ m.ids ↔ ∃ a, m.get? id = some a := by
  rw [← Option.ne_none_iff_exists', ne_eq, get?_eq_none, Decidable.not_not]

theorem mem_ids_of_get? {m : IdMap α} {id : NodeId} {a : α} (h : m.get? id = some a) : id ∈ m.ids :=
  mem_ids_iff.2 ⟨a, h⟩

theorem get?_modify (m : IdMap α) (id i : NodeId) (f : α → α) :
    (m.modify id f).get? i = if i = id then (m.get? i).map f else m.get? i := by
  simp only [get?, modify]
  induction m.entries with
  | nil => simp
  | cons e es ih =>
    rw [List.map_cons]
    by_cases he : e.1 = i
    · subst he
      by_cases hid : e.1 = id <;> simp [hid]
    · have hkept : (if e.1 == id then (e.1, f e.2) else e).1 ≠ i := by split <;> exact he
      rw [List.find?_cons_of_neg (by rwa [beq_iff_eq]), List.find?_cons_of_neg (by simpa using he)]
      exact ih

@[simp]
theorem get?_map (m : IdMap α) (f : α → β) (id : NodeId) : (m.map f).get? id = (m.get? id).map f := by
  simp only [get?, map, List.find?_map, Option.map_map]
  rfl

theorem get?_insert (m : IdMap α) (id i : NodeId) (a : α) :
    (m.insert id a).get? i = if i = id then some a else m.get? i := by
  simp only [get?, insert]
  induction m.entries with
  | nil =>
    by_cases hi : i = id
    · simp [insertEntry, hi]
    · simp [insertEntry, hi, Ne.symm hi]
  | cons e es ih =>
    unfold insertEntry
    by_cases he : e.1 = id
    · rw [if_pos (by simpa using he)]
      by_cases hi : i = id
      · simp [hi]
      · rw [if_neg hi, List.find?_cons_of_neg (by simpa using Ne.symm hi),
          List.find?_cons_of_neg (by simpa [he] using Ne.symm hi)]
    · rw [if_neg (by simpa using he)]
      by_cases hi : e.1 = i
      · rw [if_neg (fun h => he (hi.trans h)), List.find?_cons_of_pos (by simpa using hi),
          List.find?_cons_of_pos (by simpa using hi)]
      · rw [List.find?_cons_of_neg (by simpa using hi), List.find?_cons_of_neg (by simpa using hi)]
        exact ih

theorem get?_erase (m : IdMap α) (id i : NodeId) : (m.erase id).get? i = if i = id then none else m.get? i := by
  simp only [get?, erase, List.find?_filter]
  by_cases hi : i = id
  · subst hi
    simp
  · rw [if_neg hi]
    congr 2
    funext e
    by_cases he : e.1 = i
    · simp [he, hi]
    · simp [he]

/-! ### Equal maps -/

private theorem map_entries (m : IdMap α) :
    m.entries.map (fun e => (e.1, some e.2)) = m.ids.map fun id => (id, m.get? id) := by
  rw [ids, List.map_map]
  apply List.map_congr_left
  intro e he
  show (e.1, some e.2) = (e.1, m.get? e.1)
  rw [get?_of_mem_entries he]

/-- Two maps are the same if they have the same ids in the same order and the same under each. -/
theorem ext_get? {m n : IdMap α} (hids : m.ids = n.ids) (hget : ∀ id ∈ m.ids, m.get? id = n.get? id) : m = n := by
  have hentries : m.entries = n.entries := by
    have hinj : ∀ d e : NodeId × α, (d.1, some d.2) = (e.1, some e.2) → d = e := by
      rintro ⟨i, a⟩ ⟨j, b⟩ h
      obtain ⟨hij, hab⟩ := Prod.mk.inj h
      exact Prod.ext hij (Option.some.inj hab)
    rw [← List.map_inj_right hinj, map_entries, map_entries, ← hids]
    apply List.map_congr_left
    intro id hid
    rw [hget id hid]
  obtain ⟨es, hes⟩ := m
  obtain ⟨fs, hfs⟩ := n
  obtain rfl : es = fs := hentries
  rfl

end IdMap

end CellGraph
