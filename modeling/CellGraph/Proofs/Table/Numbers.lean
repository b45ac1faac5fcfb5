import CellGraph.Proofs.Table.Lookup

/-!
# Numbers as keys

Keys that are numbers are compared by their nearest doubles.  A number that a double denotes is denoted by the nearest
one (`Number.IsDouble.value_toFloat`), so among these numbers, with all doubles and all integers of at most 53 bits,
different ones are different keys, and an entry under one of them is neither found nor changed under another.  Integers
that are no doubles can share their nearest double, and then they name the same entry although they differ.
-/

namespace CellGraph

namespace Number

variable {m n : Number}

/-- Whether a double denotes the number. -/
def IsDouble (n : Number) : Prop := ∃ x : Float, x.isFinite = true ∧ Binary64.value x = n.value

theorem isDouble_float (x : Float) (finite : x.isFinite = true) : (float x finite).IsDouble := ⟨x, finite, rfl⟩

/-- Doubles denote all numbers that are no integers, and all integers of at most 53 bits. -/
theorem isDouble_of_le (h : n.isInt = false ∨ |n.value| ≤ 2 ^ 53) : n.IsDouble := by
  cases n with
  | int i inRange =>
    have hsize : |(i : ℚ)| ≤ 2 ^ 53 := h.resolve_left Bool.noConfusion
    rw [← Int.cast_abs, ← Nat.cast_natAbs] at hsize
    exact ⟨_, (int i inRange).isFinite_toFloat, Binary64.value_ofInt_of_le (by exact_mod_cast hsize)⟩
  | float x finite => exact isDouble_float x finite

/-- A number that a double denotes is denoted by its nearest double. -/
theorem IsDouble.value_toFloat (h : n.IsDouble) : Binary64.value n.toFloat = n.value := by
  obtain ⟨x, hx, hvalue⟩ := h
  cases n with
  | int i inRange => exact Binary64.value_ofInt hx hvalue
  | float y finite => rfl

theorem isDouble_congr (h : m.value = n.value) : m.IsDouble ↔ n.IsDouble := by
  rw [IsDouble, IsDouble, h]

/-- Equal numbers have equal nearest doubles. -/
theorem value_toFloat_congr (h : m.value = n.value) : Binary64.value m.toFloat = Binary64.value n.toFloat := by
  by_cases hm : m.IsDouble
  · rw [hm.value_toFloat, ((isDouble_congr h).1 hm).value_toFloat, h]
  · have hn : ¬ n.IsDouble := (isDouble_congr h).not.1 hm
    cases m with
    | int i inRange =>
      cases n with
      | int j inRange' =>
        have hij : (i : ℚ) = j := h
        rw [toFloat, toFloat, Int.cast_injective hij]
      | float y finite => exact absurd (isDouble_float y finite) hn
    | float x finite => exact absurd (isDouble_float x finite) hm

end Number

namespace Table

variable {t : Table} {key k v : Value} {e : Value × Value} {i : Nat}

/-- An entry whose key does not match is left as it is. -/
theorem getElem?_insert_of_not_match (he : t.entries[i]? = some e) (hkey : e.1.keyMatches key = false) (v : Value) :
    (t.insert key v).entries[i]? = some e := by
  rcases t.entries_insert_cases key v with ⟨before, d, after, hentries, -, hd, hinsert⟩ | ⟨-, hinsert⟩
  · rw [hentries] at he
    rw [hinsert]
    rcases Nat.lt_trichotomy i before.length with hlt | rfl | hlt
    · rw [List.getElem?_append_left hlt] at he ⊢
      exact he
    · obtain rfl : d = e := by simpa using he
      exact absurd hd (Bool.eq_false_iff.1 hkey)
    · rw [List.getElem?_append_right (by omega), List.getElem?_cons, if_neg (by omega)] at he ⊢
      exact he
  · rw [hinsert, List.getElem?_append_left (List.getElem?_eq_some_iff.1 he).1]
    exact he

/-- An entry whose key does not match is not found. -/
theorem get?_eraseIdx_of_not_match (he : t.entries[i]? = some e) (hkey : e.1.keyMatches key = false) :
    (⟨t.entries.eraseIdx i⟩ : Table).get? key = t.get? key := by
  obtain ⟨hi, rfl⟩ := List.getElem?_eq_some_iff.1 he
  have hsplit : t.entries = t.entries.take i ++ t.entries[i] :: t.entries.drop (i + 1) := by
    rw [← List.drop_eq_getElem_cons hi, List.take_append_drop]
  have hrest : (t.entries[i] :: t.entries.drop (i + 1)).find? (fun e => e.1.keyMatches key) =
      (t.entries.drop (i + 1)).find? fun e => e.1.keyMatches key := by
    simp only [List.find?_cons, hkey]
  rw [get?, get?, List.eraseIdx_eq_take_drop_succ, List.find?_append]
  conv_rhs => rw [hsplit, List.find?_append, hrest]

end Table

open Binary64 in
/-- Numbers are the same key exactly if their nearest doubles are equal, which those of equal numbers are.  Numbers that
doubles denote, with all integers of at most 53 bits, are the same key only if they are equal, and then an entry under one
of them is neither found nor changed under another. -/
theorem Table.numbers_told_apart (m n : Number) :
    ((Value.number m).keyMatches (.number n) = true ↔ value m.toFloat = value n.toFloat) ∧
    (m.value = n.value → (Value.number m).keyMatches (.number n) = true) ∧
    (m.isInt = false ∨ |m.value| ≤ 2 ^ 53 → m.IsDouble) ∧
    (m.IsDouble → n.IsDouble →
      ((Value.number m).keyMatches (.number n) = true ↔ m.value = n.value) ∧
      (m.value ≠ n.value → ∀ (t : Table) (i : Nat) (w : Value), t.entries[i]? = some (.number m, w) →
        (⟨t.entries.eraseIdx i⟩ : Table).get? (.number n) = t.get? (.number n) ∧
        ∀ v, (t.insert (.number n) v).entries[i]? = some (.number m, w))) := by
  refine ⟨Value.keyMatches_number, fun h => Value.keyMatches_number.2 (Number.value_toFloat_congr h),
    Number.isDouble_of_le, fun hm hn => ?_⟩
  have hmatch : (Value.number m).keyMatches (.number n) = true ↔ m.value = n.value := by
    rw [Value.keyMatches_number, hm.value_toFloat, hn.value_toFloat]
  refine ⟨hmatch, fun hne t i w he => ?_⟩
  have hother : (Value.number m).keyMatches (.number n) = false := Bool.eq_false_iff.2 (hmatch.not.2 hne)
  exact ⟨get?_eraseIdx_of_not_match he hother, getElem?_insert_of_not_match he hother⟩

/-- At the limit of 53 bits, where an integer and a double with the same value still are one key, the integer before
is another one. -/
theorem Table.numbers_told_apart_of_limit :
    let limit : Number := .int 9007199254740992 (by decide)
    let before : Number := .int 9007199254740991 (by decide)
    let double : Number := .float (Binary64.ofInt 9007199254740992) (Number.isFinite_toFloat limit)
    let t : Table := empty.insert (.number limit) .null
    (Value.number limit).keyMatches (.number double) = true ∧
      (Value.number limit).keyMatches (.number before) = false ∧
      t.get? (.number before) = none ∧ ∀ v, (t.insert (.number before) v).entries[0]? = some (.number limit, .null) := by
  intro limit before double t
  have hlimit : limit.IsDouble :=
    (numbers_told_apart limit before).2.2.1 (Or.inr (by norm_num [limit, Number.value]))
  have hbefore : before.IsDouble :=
    (numbers_told_apart before limit).2.2.1 (Or.inr (by norm_num [before, Number.value]))
  have hne : limit.value ≠ before.value := by norm_num [limit, before, Number.value]
  obtain ⟨hmatch, hentry⟩ := (numbers_told_apart limit before).2.2.2 hlimit hbefore
  obtain ⟨hget, hinsert⟩ := hentry hne t 0 .null rfl
  have hdouble : limit.value = double.value := (Binary64.value_ofInt_of_le (by decide)).symm
  exact ⟨(numbers_told_apart limit double).2.1 hdouble, Bool.eq_false_iff.2 (hmatch.not.2 hne), hget.symm, hinsert⟩

/-- The integer after the limit of 53 bits has the limit as its nearest double.  So the two are one key, an entry under
one of them is found under the other one, and it is overwritten under it. -/
theorem Table.not_told_apart_beyond_limit :
    let limit : Number := .int 9007199254740992 (by decide)
    let after : Number := .int 9007199254740993 (by decide)
    limit.value ≠ after.value ∧ (Value.number limit).keyMatches (.number after) = true ∧
      ∀ t v w, (insert t (.number after) v).get? (.number limit) = some v ∧
        ((insert t (.number after) v).insert (.number limit) w).get? (.number after) = some w := by
  have hmatch : (Value.number (.int 9007199254740992 (by decide))).keyMatches
      (.number (.int 9007199254740993 (by decide))) = true := rfl
  intro limit after
  refine ⟨by norm_num [limit, after, Number.value], hmatch, fun t v w => ⟨?_, ?_⟩⟩
  · rw [get?_insert, if_pos (Value.keyMatches_equivalence.symm hmatch)]
  · rw [get?_insert, if_pos hmatch]

end CellGraph
