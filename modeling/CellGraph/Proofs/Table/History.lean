import CellGraph.Proofs.Table.Lookup

/-!
# Tables and their history

Calls on a table change it step by step, and a table that is made of pairs is one whose entries are cleared and then
put in (`Call.changes`).  The changes alone say what a table holds: under a key the value that was put last under a
matching one, unless the entry was taken out since (`Holds`), and as its keys those that founded an entry, in the order
of the changes (`Founded`).  One change keeps this (`Records.change`), and so all calls do (`records_applyAll`).
-/

namespace CellGraph.Table

/-- A change of the entries. -/
inductive Change where
  | insert (key v : Value)
  | remove (key : Value)
  | clear

/-- A call that changes a table or makes a new one of pairs. -/
inductive Call where
  | change (c : Change)
  | ofList (pairs : List (Value × Value))

def Change.apply : Change → Table → Table
  | .insert key v, t => t.insert key v
  | .remove key, t => (t.remove key).2
  | .clear, _ => .empty

def Call.apply : Call → Table → Table
  | .change c, t => c.apply t
  | .ofList pairs, _ => .ofList pairs

/-- The table after several calls, the first of them on the empty one. -/
def applyAll (calls : List Call) : Table := calls.foldl (fun t call => call.apply t) empty

/-- The changes of a call, one by one. -/
def Call.changes : Call → List Change
  | .change c => [c]
  | .ofList pairs => .clear :: pairs.map fun p => .insert p.1 p.2

/-! ### What the changes say -/

/-- Whether a change puts a value under a key, or takes its entry out. -/
def Change.Touches : Change → Value → Prop
  | .insert key _, k => key.keyMatches k = true
  | .remove key, k => key.keyMatches k = true
  | .clear, _ => True

/-- Whether a change takes the entry of a key out. -/
def Change.Ends : Change → Value → Prop
  | .insert _ _, _ => False
  | .remove key, k => key.keyMatches k = true
  | .clear, _ => True

/-- The last change that touches a key puts a value under it. -/
def Holds (cs : List Change) (k v : Value) : Prop :=
  ∃ before key after, cs = before ++ .insert key v :: after ∧ key.keyMatches k = true ∧ ∀ c ∈ after, ¬ c.Touches k

/-- The change at a position puts a value under a key that there is no entry for, and its entry is not taken out
since. -/
def Founded (cs : List Change) (i : Nat) (key : Value) : Prop :=
  ∃ before v after, cs = before ++ .insert key v :: after ∧ before.length = i ∧ (∀ w, ¬ Holds before key w) ∧
    ∀ c ∈ after, ¬ c.Ends key

variable {cs : List Change} {c : Change} {t : Table} {k v key : Value} {i : Nat}

/-- A change is the last one or one of those before. -/
private theorem concat_eq_append_cons_iff {d : Change} {before after : List Change} :
    cs ++ [c] = before ++ d :: after ↔
      (after = [] ∧ d = c ∧ before = cs) ∨ ∃ rest, after = rest ++ [c] ∧ cs = before ++ d :: rest := by
  rcases after.eq_nil_or_concat with rfl | ⟨rest, e, rfl⟩
  · rw [List.append_singleton_inj]
    constructor
    · rintro ⟨rfl, rfl⟩
      exact Or.inl ⟨rfl, rfl, rfl⟩
    · rintro (⟨-, rfl, rfl⟩ | ⟨rest, hnil, -⟩)
      · exact ⟨rfl, rfl⟩
      · simp at hnil
  · rw [List.concat_eq_append, ← List.cons_append, ← List.append_assoc, List.append_singleton_inj]
    constructor
    · rintro ⟨rfl, rfl⟩
      exact Or.inr ⟨rest, rfl, rfl⟩
    · rintro (⟨hnil, -⟩ | ⟨rest', heq, rfl⟩)
      · simp at hnil
      · obtain ⟨rfl, rfl⟩ := List.append_singleton_inj.1 heq
        exact ⟨rfl, rfl⟩

theorem holds_concat : Holds (cs ++ [c]) k v ↔
    (∃ key, c = .insert key v ∧ key.keyMatches k = true) ∨ Holds cs k v ∧ ¬ c.Touches k := by
  simp only [Holds, concat_eq_append_cons_iff]
  constructor
  · rintro ⟨before, key, after, ⟨rfl, rfl, rfl⟩ | ⟨rest, rfl, rfl⟩, hkey, hafter⟩
    · exact Or.inl ⟨key, rfl, hkey⟩
    · rw [List.forall_mem_append, List.forall_mem_singleton] at hafter
      exact Or.inr ⟨⟨before, key, rest, rfl, hkey, hafter.1⟩, hafter.2⟩
  · rintro (⟨key, rfl, hkey⟩ | ⟨⟨before, key, after, rfl, hkey, hafter⟩, hlast⟩)
    · exact ⟨cs, key, [], Or.inl ⟨rfl, rfl, rfl⟩, hkey, fun _ h => absurd h List.not_mem_nil⟩
    · refine ⟨before, key, after ++ [c], Or.inr ⟨after, rfl, rfl⟩, hkey, ?_⟩
      rw [List.forall_mem_append, List.forall_mem_singleton]
      exact ⟨hafter, hlast⟩

theorem founded_concat : Founded (cs ++ [c]) i key ↔
    (i = cs.length ∧ (∃ v, c = .insert key v) ∧ ∀ w, ¬ Holds cs key w) ∨ Founded cs i key ∧ ¬ c.Ends key := by
  simp only [Founded, concat_eq_append_cons_iff]
  constructor
  · rintro ⟨before, v, after, ⟨rfl, rfl, rfl⟩ | ⟨rest, rfl, rfl⟩, hi, hnew, hafter⟩
    · exact Or.inl ⟨hi.symm, ⟨v, rfl⟩, hnew⟩
    · rw [List.forall_mem_append, List.forall_mem_singleton] at hafter
      exact Or.inr ⟨⟨before, v, rest, rfl, hi, hnew, hafter.1⟩, hafter.2⟩
  · rintro (⟨hi, ⟨v, rfl⟩, hnew⟩ | ⟨⟨before, v, after, rfl, hi, hnew, hafter⟩, hlast⟩)
    · exact ⟨cs, v, [], Or.inl ⟨rfl, rfl, rfl⟩, hi.symm, hnew, fun _ h => absurd h List.not_mem_nil⟩
    · refine ⟨before, v, after ++ [c], Or.inr ⟨after, rfl, rfl⟩, hi, hnew, ?_⟩
      rw [List.forall_mem_append, List.forall_mem_singleton]
      exact ⟨hafter, hlast⟩

theorem not_holds_nil : ¬ Holds [] k v := by
  rintro ⟨before, key, after, h, -⟩
  simp at h

theorem not_founded_nil : ¬ Founded [] i key := by
  rintro ⟨before, v, after, h, -⟩
  simp at h

theorem Founded.lt_length (h : Founded cs i key) : i < cs.length := by
  obtain ⟨before, v, after, rfl, rfl, -⟩ := h
  simp

/-! ### What the table holds -/

/-- A table is what the changes say. -/
structure Records (cs : List Change) (t : Table) : Prop where
  distinct : t.keys.Pairwise fun k l => k.keyMatches l = false
  found : ∀ k v, t.get? k = some v ↔ Holds cs k v
  founders : ∃ fs : List (Nat × Value), fs.map (·.2) = t.keys ∧ (fs.map (·.1)).Pairwise (· < ·) ∧
    ∀ i key, (i, key) ∈ fs ↔ Founded cs i key

theorem records_nil : Records [] empty where
  distinct := .nil
  found _ _ := iff_of_false nofun not_holds_nil
  founders := ⟨[], rfl, .nil, fun _ _ => iff_of_false List.not_mem_nil not_founded_nil⟩

namespace Records

theorem absent_iff (h : Records cs t) : (∀ w, ¬ Holds cs key w) ↔ ∀ e ∈ t.entries, e.1.keyMatches key = false := by
  rw [← get?_eq_none_iff, Option.eq_none_iff_forall_ne_some]
  exact forall_congr' fun w => (h.found key w).not.symm

/-- The entry of a matching key takes the value, and otherwise a new one is founded. -/
theorem insert (h : Records cs t) (key v : Value) : Records (cs ++ [.insert key v]) (t.insert key v) where
  distinct := distinct_insert h.distinct key v
  found k w := by
    rw [get?_insert, holds_concat, ← h.found]
    by_cases hk : key.keyMatches k = true
    · simp [hk, Change.Touches]
    · simp [hk, Change.Touches]
  founders := by
    obtain ⟨fs, hkeys, hsorted, hfs⟩ := h.founders
    by_cases hnew : ∀ w, ¬ Holds cs key w
    · refine ⟨fs ++ [(cs.length, key)], ?_, ?_, fun i k => ?_⟩
      · rw [keys, entries_insert_of_new (h.absent_iff.1 hnew), List.map_append, List.map_append, hkeys]
        rfl
      · rw [List.map_append, List.pairwise_append]
        refine ⟨hsorted, List.pairwise_singleton .., fun i hi j hj => ?_⟩
        obtain ⟨⟨i, k⟩, hmem, rfl⟩ := List.mem_map.1 hi
        rw [List.mem_singleton.1 hj]
        exact ((hfs i k).1 hmem).lt_length
      · rw [List.mem_append, List.mem_singleton, Prod.mk.injEq, hfs, founded_concat, or_comm]
        simp only [Change.Ends, not_false_eq_true, and_true]
        refine or_congr_left (and_congr_right fun _ => ?_)
        constructor
        · rintro rfl
          exact ⟨⟨v, rfl⟩, hnew⟩
        · rintro ⟨⟨w, hw⟩, -⟩
          exact (Change.insert.inj hw).1.symm
    · have hmatch : ∃ e ∈ t.entries, e.1.keyMatches key = true := by
        simpa using mt h.absent_iff.2 hnew
      refine ⟨fs, hkeys.trans (keys_insert_of_match hmatch v).symm, hsorted, fun i k => ?_⟩
      rw [hfs, founded_concat]
      constructor
      · exact fun hfounded => Or.inr ⟨hfounded, not_false⟩
      · rintro (⟨-, ⟨w, hw⟩, hk⟩ | ⟨hfounded, -⟩)
        · obtain ⟨rfl, rfl⟩ := Change.insert.inj hw
          exact absurd hk hnew
        · exact hfounded

/-- The entry of a matching key is gone, and all others stay. -/
theorem remove (h : Records cs t) (key : Value) : Records (cs ++ [.remove key]) (t.erase key) where
  distinct := h.distinct.sublist ((List.eraseP_sublist ..).map _)
  found k w := by
    rw [get?_erase h.distinct, holds_concat, ← h.found]
    by_cases hk : key.keyMatches k = true
    · simp [hk, Change.Touches]
    · simp [hk, Change.Touches]
  founders := by
    obtain ⟨fs, hkeys, hsorted, hfs⟩ := h.founders
    refine ⟨fs.filter fun f => !f.2.keyMatches key, ?_, hsorted.sublist (List.filter_sublist.map _), fun i k => ?_⟩
    · rw [keys, entries_erase h.distinct]
      have hfilter := congrArg (List.filter fun k => !k.keyMatches key) hkeys
      rwa [keys, List.filter_map, List.filter_map] at hfilter
    · rw [List.mem_filter, hfs, founded_concat, Value.keyMatches_symm]
      simp [Change.Ends]

theorem clear : Records (cs ++ [.clear]) empty where
  distinct := .nil
  found k w := by
    rw [holds_concat]
    simp [Change.Touches, get?, empty]
  founders := by
    refine ⟨[], rfl, .nil, fun i k => ?_⟩
    rw [founded_concat]
    simp [Change.Ends]

/-- One more change. -/
theorem change (h : Records cs t) (c : Change) : Records (cs ++ [c]) (c.apply t) := by
  cases c with
  | insert key v => exact h.insert key v
  | remove key =>
    rw [Change.apply, remove_eq]
    exact h.remove key
  | clear => exact clear

/-- Several more changes. -/
theorem changes (h : Records cs t) (ds : List Change) : Records (cs ++ ds) (ds.foldl (fun t c => c.apply t) t) := by
  induction ds generalizing cs t with
  | nil => rwa [List.append_nil]
  | cons d ds ih =>
    rw [← List.singleton_append, ← List.append_assoc]
    exact ih (h.change d)

end Records

/-- A call does what its changes do one after the other. -/
theorem Call.apply_eq (call : Call) (t : Table) : call.apply t = call.changes.foldl (fun t c => c.apply t) t := by
  cases call with
  | change c => rfl
  | ofList pairs =>
    rw [changes, List.foldl_cons, List.foldl_map]
    rfl

/-- What calls make of the empty table is what their changes say. -/
theorem records_applyAll (calls : List Call) : Records (calls.flatMap Call.changes) (applyAll calls) := by
  have hchanges := records_nil.changes (calls.flatMap Call.changes)
  simp only [List.foldl_flatMap, ← Call.apply_eq] at hchanges
  exact hchanges

/-- Matching is an equivalence, and whatever calls are made, a table holds one entry at most for each class of keys.
Under a key it has the value that was put last under a matching one and not taken out since, and its keys are those that
founded an entry, in their order.  What is taken out is what is found, and the rest keeps its order.  A table can be made
again of its entries. -/
theorem history_exact :
    (Equivalence fun k l : Value => k.keyMatches l = true) ∧
    ∀ calls : List Call,
      ((applyAll calls).keys.Pairwise fun k l => k.keyMatches l = false) ∧
      (∀ k v, (applyAll calls).get? k = some v ↔ Holds (calls.flatMap Call.changes) k v) ∧
      (∃ fs : List (Nat × Value), fs.map (·.2) = (applyAll calls).keys ∧ (fs.map (·.1)).Pairwise (· < ·) ∧
        ∀ i key, (i, key) ∈ fs ↔ Founded (calls.flatMap Call.changes) i key) ∧
      (∀ k, (applyAll calls).remove k =
        ((applyAll calls).get? k, ⟨(applyAll calls).entries.filter fun e => !e.1.keyMatches k⟩)) ∧
      ofList (applyAll calls).entries = applyAll calls := by
  refine ⟨Value.keyMatches_equivalence, fun calls => ?_⟩
  have h := records_applyAll calls
  refine ⟨h.distinct, h.found, h.founders, fun k => ?_, ofList_of_distinct h.distinct⟩
  rw [remove_eq, ← entries_erase h.distinct]

/-- A key that is set again keeps its place, and one that was taken out comes back last. -/
example :
    (applyAll [.ofList [(.string "a", .null), (.string "b", .null)], .change (.insert (.string "a") (.bool true)),
      .change (.remove (.string "a")), .change (.insert (.string "b") (.bool true)),
      .change (.insert (.string "a") .null)]).entries = [(.string "b", .bool true), (.string "a", .null)] := rfl

end CellGraph.Table
