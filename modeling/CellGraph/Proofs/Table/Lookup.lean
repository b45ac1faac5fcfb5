import CellGraph.Proofs.Cell.Configuration
import CellGraph.Proofs.Table.Keys

/-!
# Looking up after a change

What is found under a key after a value is put into a table (`get?_insert`) or an entry is taken out (`get?_erase`).  The
entry that is taken out is the only one of its class, so all others stay in their order (`entries_erase`).
-/

namespace CellGraph.Table

variable {t : Table} {key k v : Value}

theorem get?_eq_none_iff : t.get? k = none ↔ ∀ e ∈ t.entries, e.1.keyMatches k = false := by
  rw [get?, Option.map_eq_none_iff, List.find?_eq_none]
  simp only [Bool.not_eq_true]

/-! ### Putting a value in -/

/-- No key matches what matches a key that none matches. -/
private theorem find?_eq_none_of_match {es : List (Value × Value)} (hk : key.keyMatches k = true)
    (h : ∀ e ∈ es, e.1.keyMatches key = false) : es.find? (fun e => e.1.keyMatches k) = none := by
  refine List.find?_eq_none.2 fun e he => ?_
  rw [← Value.keyMatches_congr hk, h e he]
  exact Bool.false_ne_true

theorem get?_insert (t : Table) (key v k : Value) :
    (t.insert key v).get? k = if key.keyMatches k = true then some v else t.get? k := by
  rcases t.entries_insert_cases key v with ⟨before, e, after, hentries, hbefore, he, hinsert⟩ | ⟨hnew, hinsert⟩
  · have hek : e.1.keyMatches k = key.keyMatches k := Value.respects_keyMatches e.1 key he k
    rw [get?, get?, hinsert, hentries, List.find?_append, List.find?_append]
    by_cases hk : key.keyMatches k = true
    · rw [if_pos hk, find?_eq_none_of_match hk hbefore]
      simp [hek, hk]
    · rw [if_neg hk]
      simp [hek, hk]
  · rw [get?, get?, hinsert, List.find?_append]
    by_cases hk : key.keyMatches k = true
    · rw [if_pos hk, find?_eq_none_of_match hk hnew]
      simp [hk]
    · rw [if_neg hk]
      simp [hk]

/-! ### Taking an entry out -/

/-- What is taken out is what is found. -/
theorem remove_eq (t : Table) (key : Value) : t.remove key = (t.get? key, t.erase key) := by
  rw [remove, get?, erase, List.find?_eq_bind_findIdx?_getElem?, List.eraseP_eq_eraseIdx]
  cases t.entries.findIdx? fun e => e.1.keyMatches key with
  | none => rfl
  | some i => rfl

/-- If no two keys match, all entries of the class of a key are gone without the first one. -/
theorem entries_erase (h : t.keys.Pairwise fun k l => k.keyMatches l = false) (key : Value) :
    (t.erase key).entries = t.entries.filter fun e => !e.1.keyMatches key := by
  show t.entries.eraseP _ = _
  rw [keys] at h
  generalize t.entries = es at h
  induction es with
  | nil => rfl
  | cons e es ih =>
    rw [List.map_cons, List.pairwise_cons] at h
    by_cases he : e.1.keyMatches key = true
    · have hrest : es.filter (fun e => !e.1.keyMatches key) = es := by
        refine List.filter_eq_self.2 fun d hd => ?_
        rw [← Value.keyMatches_congr he, Value.keyMatches_symm, h.1 d.1 (List.mem_map_of_mem hd)]
        rfl
      simp [he, hrest]
    · simp [he, ih h.2]

theorem get?_erase (h : t.keys.Pairwise fun k l => k.keyMatches l = false) (key k : Value) :
    (t.erase key).get? k = if key.keyMatches k = true then none else t.get? k := by
  rw [get?, get?, entries_erase h, List.find?_filter]
  by_cases hk : key.keyMatches k = true
  · rw [if_pos hk, Option.map_eq_none_iff, List.find?_eq_none]
    intro e _
    rw [Value.keyMatches_congr hk]
    simp
  · have hother : ∀ e : Value × Value, e.1.keyMatches k = true → e.1.keyMatches key = false :=
      fun e he => Bool.eq_false_iff.2 fun hek => hk ((Value.respects_keyMatches e.1 key hek k).symm.trans he)
    rw [if_neg hk]
    congr 2
    funext e
    rw [Bool.eq_iff_iff, decide_eq_true_iff]
    refine ⟨fun he => he.2, fun he => ⟨?_, he⟩⟩
    rw [hother e he]
    rfl

end CellGraph.Table
