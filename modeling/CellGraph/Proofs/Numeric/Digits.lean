import CellGraph.Numeric.Digits
import Mathlib.Algebra.Ring.Nat
import Mathlib.Data.List.TakeWhile

/-!
# Runs of digits

The digits of a number are read as that number (`digitsValue_digitsOf`), zeros before them do not count and zeros after
them are factors of ten.  A run of characters is taken off a text up to the first character that does not belong to it
(`takeWhile_run`, `dropWhile_run`).
-/

namespace CellGraph

/-! ### Runs -/

theorem takeWhile_run {p : Char → Bool} {run cs : List Char} (hrun : ∀ c ∈ run, p c = true)
    (hcs : ∀ c ∈ cs.head?, p c = false) : (run ++ cs).takeWhile p = run := by
  rw [List.takeWhile_append_of_pos hrun]
  rcases cs with _ | ⟨c, cs⟩
  · exact List.append_nil run
  · rw [List.takeWhile_cons, hcs c rfl]
    exact List.append_nil run

theorem dropWhile_run {p : Char → Bool} {run cs : List Char} (hrun : ∀ c ∈ run, p c = true)
    (hcs : ∀ c ∈ cs.head?, p c = false) : (run ++ cs).dropWhile p = cs := by
  have happend := List.takeWhile_append_dropWhile (p := p) (l := run ++ cs)
  rw [takeWhile_run hrun hcs] at happend
  exact List.append_cancel_left happend

/-! ### Digits -/

theorem digitsValue_eq_ofDigitChars (ds : List Char) : digitsValue ds = Nat.ofDigitChars 10 ds 0 := by
  rw [digitsValue_eq_foldl, Nat.ofDigitChars_eq_foldl]
  rfl

theorem digitsValue_digitsOf (n : Nat) : digitsValue (digitsOf n) = n := by
  rw [digitsValue_eq_ofDigitChars]
  exact Nat.ofDigitChars_ten_toDigits

/-- Zeros before digits do not count. -/
theorem digitsValue_replicate_append (n : Nat) (ds : List Char) :
    digitsValue (List.replicate n '0' ++ ds) = digitsValue ds := by
  simp only [digitsValue_eq_ofDigitChars, Nat.ofDigitChars_append, Nat.ofDigitChars_replicate_zero, Nat.mul_zero]

/-- Zeros after digits are factors of ten. -/
theorem digitsValue_append_replicate (ds : List Char) (n : Nat) :
    digitsValue (ds ++ List.replicate n '0') = digitsValue ds * 10 ^ n := by
  simp only [digitsValue_eq_ofDigitChars, Nat.ofDigitChars_append, Nat.ofDigitChars_replicate_zero, Nat.mul_comm]

theorem digitsValue_concat (ds : List Char) (c : Char) :
    digitsValue (ds ++ [c]) = 10 * digitsValue ds + digitValue c := by
  simp only [digitsValue_eq_foldl, List.foldl_append, List.foldl_cons, List.foldl_nil]

theorem digitsValue_le_append (ds es : List Char) : digitsValue ds ≤ digitsValue (ds ++ es) := by
  induction es generalizing ds with
  | nil => rw [List.append_nil]
  | cons c es ih =>
    have hrest := ih (ds ++ [c])
    rw [digitsValue_concat, List.append_assoc, List.singleton_append] at hrest
    omega

/-- Digits that are worth something are worth more with others behind them. -/
theorem eq_of_prefix_of_digitsValue_eq {ds es : List Char} (hds : ds <+: es)
    (hvalue : digitsValue es = digitsValue ds) (hpos : 1 ≤ digitsValue es) : es = ds := by
  obtain ⟨rest, rfl⟩ := hds
  rcases rest with _ | ⟨c, rest⟩
  · exact List.append_nil ds
  · have hle := digitsValue_le_append (ds ++ [c]) rest
    rw [digitsValue_concat, List.append_assoc, List.singleton_append] at hle
    omega

theorem isDigit_of_mem_digitsOf {n : Nat} : ∀ c ∈ digitsOf n, isDigit c = true := by
  intro c hc
  have hdigit : c.isDigit = true := Nat.isDigit_of_mem_toDigits (by decide) (by decide) hc
  simpa [isDigit, Char.isDigit, Char.le_def] using hdigit

theorem digitsOf_ne_nil (n : Nat) : digitsOf n ≠ [] := Nat.toDigits_ne_nil

/-- A number with a number of digits is below that power of ten. -/
theorem lt_ten_pow_length (n : Nat) : n < 10 ^ (digitsOf n).length :=
  (Nat.length_toDigits_le_iff (by decide) Nat.length_toDigits_pos).1 le_rfl

/-- The digits of a positive number start with none that is zero. -/
theorem head?_digitsOf {n : Nat} (h : 0 < n) : (digitsOf n).head? ≠ some '0' := by
  have hdigit : ∀ n < 10, 0 < n → [n.digitChar].head? ≠ some '0' := by decide
  induction n using Nat.strongRecOn with
  | ind n ih =>
    by_cases hn : n < 10
    · rw [digitsOf, Nat.toDigits_of_lt_base hn]
      exact hdigit n hn h
    · have hdiv : 0 < n / 10 := by omega
      have hfirst := ih (n / 10) (by omega) hdiv
      rw [digitsOf, Nat.toDigits_of_base_le (by decide) (by omega), List.head?_append]
      rcases hd : (digitsOf (n / 10)).head? with _ | c
      · exact absurd (List.head?_eq_none_iff.1 hd) (digitsOf_ne_nil _)
      · rw [hd] at hfirst
        rw [digitsOf] at hd
        rw [hd]
        exact hfirst

end CellGraph
