import CellGraph.Proofs.Json.Tree

/-!
# Values that are read

A value that is read is nested within the limit (`Json.Tree.nesting_le_of_value?`), whatever the text repeats.  So it is
read again from its own text, within the same limit.
-/

namespace CellGraph

open Json (Tree)

/-- What is read of a list comes from its items. -/
theorem exists_of_mem_mapM {α β : Type} {f : α → Option β} {l : List α} {l' : List β} (h : l.mapM f = some l') :
    ∀ b ∈ l', ∃ a ∈ l, f a = some b := by
  induction l generalizing l' with
  | nil =>
    obtain rfl : [] = l' := by simpa using h
    exact nofun
  | cons a l ih =>
    rw [List.mapM_cons, Option.bind_eq_bind, Option.bind_eq_some_iff] at h
    obtain ⟨b, hb, hrest⟩ := h
    obtain ⟨bs, hbs, heq⟩ := Option.bind_eq_some_iff.1 hrest
    obtain rfl : b :: bs = l' := Option.some.inj heq
    intro c hc
    rcases List.mem_cons.1 hc with rfl | hc
    · exact ⟨a, List.mem_cons_self .., hb⟩
    · obtain ⟨d, hd, hdc⟩ := ih hbs c hc
      exact ⟨d, List.mem_cons_of_mem _ hd, hdc⟩

namespace Value

theorem nestingItems_le_iff {vs : List Value} {depth : Nat} :
    nestingItems vs ≤ depth ↔ ∀ v ∈ vs, v.nesting ≤ depth := by
  induction vs with
  | nil => simp [nestingItems]
  | cons v vs ih => rw [nestingItems, max_le_iff, ih, List.forall_mem_cons]

theorem nestingMembers_le_iff {used : List String} {fs : Members used} {depth : Nat} :
    nestingMembers fs ≤ depth ↔ ∀ f ∈ fs.toList, f.2.nesting ≤ depth := by
  induction fs with
  | nil => simp [nestingMembers, Members.toList]
  | cons k v new fs ih => rw [nestingMembers, max_le_iff, ih, Members.toList, List.forall_mem_cons]

end Value

/-! ### What is read -/

namespace Json.Tree

private theorem nesting_le_of_flat {depth : Nat} {t : Tree} {v : Value} (h : t.value? depth = some v)
    (harray : ∀ ts, t ≠ .array ts) (hobject : ∀ ms, t ≠ .object ms) : v.nesting ≤ depth := by
  cases t with
  | array ts => exact absurd rfl (harray ts)
  | object ms => exact absurd rfl (hobject ms)
  | null =>
    rw [value?] at h
    obtain rfl := Option.some.inj h
    exact Nat.zero_le _
  | bool b =>
    rw [value?] at h
    obtain rfl := Option.some.inj h
    exact Nat.zero_le _
  | numeral n =>
    rw [value?] at h
    obtain ⟨m, -, rfl⟩ := Option.map_eq_some_iff.1 h
    exact Nat.zero_le _
  | string ps =>
    rw [value?] at h
    obtain ⟨s, -, rfl⟩ := Option.map_eq_some_iff.1 h
    exact Nat.zero_le _

/-- A value that is read is nested within the limit. -/
theorem nesting_le_of_value? {depth : Nat} {t : Tree} {v : Value} (h : t.value? depth = some v) :
    v.nesting ≤ depth := by
  induction depth generalizing t v with
  | zero =>
    cases t with
    | array ts => nomatch h
    | object ms => nomatch h
    | _ => exact nesting_le_of_flat h nofun nofun
  | succ depth ih =>
    cases t with
    | array ts =>
      obtain ⟨vs, hvs, rfl⟩ := Option.map_eq_some_iff.1 h
      refine Nat.succ_le_succ (Value.nestingItems_le_iff.2 fun v hv => ?_)
      obtain ⟨t, -, ht⟩ := exists_of_mem_mapM hvs v hv
      exact ih ht
    | object ms =>
      obtain ⟨fs, hfs, heq⟩ := Option.bind_eq_some_iff.1 h
      obtain rfl := Option.some.inj heq
      refine Nat.succ_le_succ (Value.nestingMembers_le_iff.2 fun f hf => ?_)
      obtain ⟨m, -, hm⟩ := exists_of_mem_mapM hfs f (Members.mem_of_mem_ofList hf)
      obtain ⟨k, -, hm⟩ := Option.bind_eq_some_iff.1 hm
      obtain ⟨v, hv, hm⟩ := Option.bind_eq_some_iff.1 hm
      obtain rfl := Option.some.inj hm
      exact ih hv
    | _ => exact nesting_le_of_flat h nofun nofun

end Json.Tree

end CellGraph
