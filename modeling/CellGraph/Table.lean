import CellGraph.Scalar

/-!
# Tables

A table is a list of entries, each a key and a value, in the order in which the keys first came.  Keys are compared by
`Value.keyMatches`, so `11` and `11.0` name one entry.  An entry that is overwritten keeps its place and its key.
-/

namespace CellGraph

/-- An ordered table from values to values. -/
structure Table where
  entries : List (Value × Value)

namespace Table

def empty : Table := ⟨[]⟩

instance : Inhabited Table := ⟨empty⟩

def size (t : Table) : Nat := t.entries.length

def isEmpty (t : Table) : Bool := t.entries.isEmpty

/-- The value of the first entry whose key matches. -/
def get? (t : Table) (key : Value) : Option Value := (t.entries.find? fun e => e.1.keyMatches key).map (·.2)

private def insertEntry (key v : Value) : List (Value × Value) → List (Value × Value)
  | [] => [(key, v)]
  | e :: es => if e.1.keyMatches key then (e.1, v) :: es else e :: insertEntry key v es

/-- The table with a value under a key: the first entry that matches takes it, else a new last one. -/
def insert (t : Table) (key v : Value) : Table := ⟨insertEntry key v t.entries⟩

/-- The table without the first entry whose key matches. -/
def erase (t : Table) (key : Value) : Table := ⟨t.entries.eraseP fun e => e.1.keyMatches key⟩

/-- The value of the first entry whose key matches, and the table without that entry. -/
def remove (t : Table) (key : Value) : Option Value × Table :=
  match t.entries.findIdx? fun e => e.1.keyMatches key with
  | some i => (t.entries[i]?.map (·.2), ⟨t.entries.eraseIdx i⟩)
  | none => (none, t)

/-- The table of a list of pairs, inserted one after the other. -/
def ofList (pairs : List (Value × Value)) : Table := pairs.foldl (fun t p => t.insert p.1 p.2) empty

/-- Whether two tables have the same entries in the same order. -/
def same (s t : Table) : Bool := go s.entries t.entries
where
  /-- Whether two lists of entries are the same entry by entry. -/
  go : List (Value × Value) → List (Value × Value) → Bool
    | [], [] => true
    | d :: ds, e :: es => d.1.same e.1 && d.2.same e.2 && go ds es
    | _, _ => false

/-! ### Entries after a change -/

/-- The first entry that matches takes the value and keeps its key and its place, and a key that matches none comes last
with the value. -/
theorem entries_insert_cases (t : Table) (key v : Value) :
    (∃ before e after, t.entries = before ++ e :: after ∧ (∀ d ∈ before, d.1.keyMatches key = false) ∧
      e.1.keyMatches key = true ∧ (t.insert key v).entries = before ++ (e.1, v) :: after) ∨
    (∀ e ∈ t.entries, e.1.keyMatches key = false) ∧ (t.insert key v).entries = t.entries ++ [(key, v)] := by
  rcases t with ⟨es⟩
  show (∃ before e after, es = _ ∧ _ ∧ _ ∧ insertEntry key v es = _) ∨ _ ∧ insertEntry key v es = es ++ _
  induction es with
  | nil => exact Or.inr ⟨fun e he => absurd he List.not_mem_nil, rfl⟩
  | cons e es ih =>
    by_cases he : e.1.keyMatches key = true
    · exact Or.inl ⟨[], e, es, rfl, fun d hd => absurd hd List.not_mem_nil, he, if_pos he⟩
    · have hfirst : e.1.keyMatches key = false := Bool.eq_false_iff.2 he
      rw [insertEntry, if_neg he]
      rcases ih with ⟨before, d, after, rfl, hbefore, hd, hinsert⟩ | ⟨hnew, hinsert⟩
      · refine Or.inl ⟨e :: before, d, after, rfl, List.forall_mem_cons.2 ⟨hfirst, hbefore⟩, hd, ?_⟩
        rw [hinsert, List.cons_append]
      · refine Or.inr ⟨List.forall_mem_cons.2 ⟨hfirst, hnew⟩, ?_⟩
        rw [hinsert, List.cons_append]

/-- A key that matches no other comes last with its value. -/
theorem entries_insert_of_new {t : Table} {key : Value} (h : ∀ e ∈ t.entries, e.1.keyMatches key = false) (v : Value) :
    (t.insert key v).entries = t.entries ++ [(key, v)] := by
  rcases t.entries_insert_cases key v with ⟨before, e, after, hentries, -, he, -⟩ | ⟨-, hinsert⟩
  · have hmem : e ∈ t.entries := hentries ▸ List.mem_append_right _ (List.mem_cons_self ..)
    exact absurd he (Bool.eq_false_iff.1 (h e hmem))
  · exact hinsert

/-- A key that matches another leaves all keys as they are. -/
theorem keys_insert_of_match {t : Table} {key : Value} (h : ∃ e ∈ t.entries, e.1.keyMatches key = true) (v : Value) :
    (t.insert key v).entries.map (·.1) = t.entries.map (·.1) := by
  rcases t.entries_insert_cases key v with ⟨before, e, after, hentries, -, -, hinsert⟩ | ⟨hnew, -⟩
  · rw [hinsert, hentries, List.map_append, List.map_append]
    rfl
  · obtain ⟨e, he, hmatch⟩ := h
    exact absurd hmatch (Bool.eq_false_iff.1 (hnew e he))

/-- The value that is set stands under the key that is given or under an old one, and all else is as it was. -/
theorem mem_entries_insert {t : Table} {key v : Value} {e : Value × Value} (h : e ∈ (t.insert key v).entries) :
    e ∈ t.entries ∨ e.2 = v ∧ (e.1 = key ∨ ∃ d ∈ t.entries, d.1 = e.1) := by
  rcases t.entries_insert_cases key v with ⟨before, d, after, hentries, -, -, hinsert⟩ | ⟨-, hinsert⟩
  · rw [hinsert, List.mem_append, List.mem_cons] at h
    rw [hentries]
    rcases h with h | rfl | h
    · exact Or.inl (List.mem_append_left _ h)
    · exact Or.inr ⟨rfl, Or.inr ⟨d, List.mem_append_right _ (List.mem_cons_self ..), rfl⟩⟩
    · exact Or.inl (List.mem_append_right _ (List.mem_cons_of_mem _ h))
  · rw [hinsert, List.mem_append, List.mem_singleton] at h
    rcases h with h | rfl
    · exact Or.inl h
    · exact Or.inr ⟨rfl, Or.inl rfl⟩

end Table

end CellGraph
