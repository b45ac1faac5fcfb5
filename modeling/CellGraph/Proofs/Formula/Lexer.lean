import CellGraph.Formula.Compile
import CellGraph.Proofs.Numeric.Digits

/-!
# The tokens of a formula

What it means to cut a text into tokens (`Lexes`): a rule for every kind of token, with what may not come directly after
it.  Cutting a text into tokens gives the tokens of these rules and fails exactly if there are none
(`ofChars_eq_ok_iff`).  The references of a text are its arguments in the same order (`Lexes.references`).
-/

namespace CellGraph.Formula

/-- The digits after a point, with the point. -/
def fractionText : Option (List Char) → List Char
  | none => []
  | some ds => '.' :: ds

/-- The tokens of a text.  Numbers and references take all digits that come next, and a number all points too. -/
inductive Lexes : List Char → List Token → Prop
  | nil : Lexes [] []
  | blank {c : Char} {cs : List Char} {ts : List Token} : isBlank c = true → Lexes cs ts → Lexes (c :: cs) ts
  | number {whole : List Char} {fraction : Option (List Char)} {cs : List Char} {ts : List Token} :
      (∀ d ∈ whole, isDigit d = true) → (∀ ds ∈ fraction, ∀ d ∈ ds, isDigit d = true) →
      (whole ≠ [] ∨ ∃ ds ∈ fraction, ds ≠ []) → (∀ c ∈ cs.head?, isNumberChar c = false) → Lexes cs ts →
      Lexes (whole ++ fractionText fraction ++ cs) (.number (Numeral.toFloat ⟨false, whole, fraction, none⟩) :: ts)
  | argument {ds cs : List Char} {ts : List Token} : (∀ d ∈ ds, isDigit d = true) →
      (∀ c ∈ cs.head?, isDigit c = false) → Lexes cs ts →
      Lexes ('$' :: (ds ++ cs)) (.argument (digitsValue ds - 1) :: ts)
  | add {cs : List Char} {ts : List Token} : cs.head? ≠ some '+' → Lexes cs ts →
      Lexes ('+' :: cs) (.operator .add :: ts)
  | sub {cs : List Char} {ts : List Token} : cs.head? ≠ some '-' → Lexes cs ts →
      Lexes ('-' :: cs) (.operator .sub :: ts)
  | mul {cs : List Char} {ts : List Token} : cs.head? ≠ some '*' → Lexes cs ts →
      Lexes ('*' :: cs) (.operator .mul :: ts)
  | pow {cs : List Char} {ts : List Token} : Lexes cs ts → Lexes ('*' :: '*' :: cs) (.operator .pow :: ts)
  | div {cs : List Char} {ts : List Token} : cs.head? ≠ some '/' → cs.head? ≠ some '*' → Lexes cs ts →
      Lexes ('/' :: cs) (.operator .div :: ts)
  | rem {cs : List Char} {ts : List Token} : Lexes cs ts → Lexes ('%' :: cs) (.operator .rem :: ts)
  | openParen {cs : List Char} {ts : List Token} : Lexes cs ts → Lexes ('(' :: cs) (.openParen :: ts)
  | closeParen {cs : List Char} {ts : List Token} : Lexes cs ts → Lexes (')' :: cs) (.closeParen :: ts)

/-! ### Runs of characters -/

private theorem head?_dropWhile {p : Char → Bool} {cs : List Char} : ∀ c ∈ (cs.dropWhile p).head?, p c = false := by
  intro c hc
  have hnot := List.head?_dropWhile_not p cs
  rw [Option.mem_def.1 hc] at hnot
  simpa using hnot

private theorem mem_takeWhile {p : Char → Bool} {cs : List Char} : ∀ c ∈ cs.takeWhile p, p c = true :=
  fun _ hc => List.mem_takeWhile_imp hc

/-! ### Numbers -/

private theorem eq_point {c : Char} (hc : isNumberChar c = true) (hdigit : isDigit c = false) : c = '.' := by
  simpa [isNumberChar, hdigit] using hc

private theorem eq_nil_of_exponent {cs : List Char} {e : Option Int} (hcs : ∀ c ∈ cs, isNumberChar c = true)
    (hdigit : ∀ c ∈ cs.head?, isDigit c = false) (h : Numeral.scanExponent? Numeral.powerValue cs = some (e, [])) :
    cs = [] ∧ e = none := by
  rcases cs with _ | ⟨c, cs⟩
  · exact ⟨rfl, (Prod.mk.inj (Option.some.inj h)).1.symm⟩
  · obtain rfl := eq_point (hcs c (List.mem_cons_self ..)) (hdigit c rfl)
    nomatch h

/-- A run of digits and points that is a number has one point at most, and a digit. -/
private theorem exists_of_ofText? {cs : List Char} (hcs : ∀ c ∈ cs, isNumberChar c = true) {n : Numeral}
    (h : Numeral.ofText? false cs = some n) : ∃ whole fraction, cs = whole ++ fractionText fraction ∧
      (∀ d ∈ whole, isDigit d = true) ∧ (∀ ds ∈ fraction, ∀ d ∈ ds, isDigit d = true) ∧
      (whole ≠ [] ∨ ∃ ds ∈ fraction, ds ≠ []) ∧ n = ⟨false, whole, fraction, none⟩ := by
  have hsplit := List.takeWhile_append_dropWhile (p := isDigit) (l := cs)
  have hrest : ∀ c ∈ cs.dropWhile isDigit, isNumberChar c = true :=
    fun c hc => hcs c ((List.dropWhile_suffix isDigit).subset hc)
  have hhead : ∀ c ∈ (cs.dropWhile isDigit).head?, isDigit c = false := head?_dropWhile
  unfold Numeral.ofText? at h
  revert h hsplit hrest hhead
  rcases cs.dropWhile isDigit with _ | ⟨c, rest⟩
  · intro h hsplit _ _
    refine ⟨cs.takeWhile isDigit, none, hsplit.symm, mem_takeWhile, nofun, ?_⟩
    simp only [Numeral.scanFraction, Numeral.scanExponent?, Option.getD_none, List.append_nil] at h
    split at h
    · nomatch h
    · rename_i hne
      exact ⟨Or.inl (by simpa using hne), (Option.some.inj h).symm⟩
  · intro h hsplit hrest hhead
    obtain rfl := eq_point (hrest c (List.mem_cons_self ..)) (hhead c rfl)
    simp only [Numeral.scanFraction, Option.getD_some] at h
    split at h
    · nomatch h
    · rename_i hne
      split at h
      · rename_i exponent hexponent
        have hafter : ∀ c ∈ rest.dropWhile isDigit, isNumberChar c = true :=
          fun c hc => hrest c (List.mem_cons_of_mem _ ((List.dropWhile_suffix isDigit).subset hc))
        obtain ⟨hnil, rfl⟩ := eq_nil_of_exponent hafter head?_dropWhile hexponent
        have hall := List.takeWhile_append_dropWhile (p := isDigit) (l := rest)
        rw [hnil, List.append_nil] at hall
        rw [hall] at h hne
        refine ⟨cs.takeWhile isDigit, some rest, hsplit.symm, mem_takeWhile, ?_, ?_, (Option.some.inj h).symm⟩
        · rintro ds ⟨⟩
          exact hall ▸ mem_takeWhile
        · simp only [beq_iff_eq, List.append_eq_nil_iff, not_and_or] at hne
          exact hne.imp_right fun hne => ⟨rest, rfl, hne⟩
      · nomatch h

/-- Digits with one point at most are a number, if there is a digit. -/
private theorem ofText?_eq_some {whole : List Char} {fraction : Option (List Char)}
    (hwhole : ∀ d ∈ whole, isDigit d = true) (hfraction : ∀ ds ∈ fraction, ∀ d ∈ ds, isDigit d = true)
    (hdigit : whole ≠ [] ∨ ∃ ds ∈ fraction, ds ≠ []) :
    Numeral.ofText? false (whole ++ fractionText fraction) = some ⟨false, whole, fraction, none⟩ := by
  have hpoint : ∀ c ∈ (fractionText fraction).head?, isDigit c = false := by
    rcases fraction with _ | ds
    · exact nofun
    · rintro c ⟨⟩
      decide
  rw [Numeral.ofText?, takeWhile_run hwhole hpoint, dropWhile_run hwhole hpoint]
  rcases fraction with _ | ds
  · have hne : whole ≠ [] := hdigit.resolve_right fun ⟨ds, hds, _⟩ => nomatch hds
    simp [fractionText, Numeral.scanFraction, Numeral.scanExponent?, hne]
  · have hds : ∀ d ∈ ds, isDigit d = true := hfraction ds rfl
    have htake : ds.takeWhile isDigit = ds := List.takeWhile_eq_self_iff.2 hds
    have hdrop : ds.dropWhile isDigit = [] := List.dropWhile_eq_nil_iff.2 hds
    have hne : whole = [] → ds ≠ [] := by
      intro hwhole
      obtain ⟨ds', hds', hne⟩ := hdigit.resolve_left (fun h => h hwhole)
      exact Option.mem_some.1 hds' ▸ hne
    simpa [fractionText, Numeral.scanFraction, Numeral.scanExponent?, htake, hdrop] using hne

/-! ### Single tokens -/

/-- A number that is cut off has its rule. -/
private theorem Lexes.of_scan_number {c : Char} {cs rest : List Char} {t : Token} {ts : List Token}
    (hc : isNumberChar c = true) (h : Token.scan c cs = .ok (t, rest)) (hrest : Lexes rest ts) :
    Lexes (c :: cs) (t :: ts) := by
  unfold Token.scan at h
  rw [if_pos hc] at h
  dsimp only at h
  split at h
  · rename_i n hn
    obtain ⟨rfl, rfl⟩ := Prod.mk.inj (Except.ok.inj h)
    have hrun : ∀ d ∈ c :: cs.takeWhile isNumberChar, isNumberChar d = true := by
      intro d hd
      rcases List.mem_cons.1 hd with rfl | hd
      · exact hc
      · exact mem_takeWhile d hd
    obtain ⟨whole, fraction, htext, hwhole, hfraction, hdigit, rfl⟩ := exists_of_ofText? hrun hn
    have hsplit : c :: cs = whole ++ fractionText fraction ++ cs.dropWhile isNumberChar := by
      rw [← htext, List.cons_append, List.takeWhile_append_dropWhile]
    rw [hsplit]
    exact .number hwhole hfraction hdigit head?_dropWhile hrest
  · nomatch h

/-- A token that is cut off is one of the rules. -/
private theorem Lexes.of_scan {c : Char} {cs rest : List Char} {t : Token} {ts : List Token}
    (h : Token.scan c cs = .ok (t, rest)) (hrest : Lexes rest ts) : Lexes (c :: cs) (t :: ts) := by
  by_cases hc : isNumberChar c = true
  · exact of_scan_number hc h hrest
  · unfold Token.scan at h
    rw [if_neg hc] at h
    split at h
    · obtain ⟨rfl, rfl⟩ := Prod.mk.inj (Except.ok.inj h)
      have hlexes : Lexes ('$' :: (cs.takeWhile isDigit ++ cs.dropWhile isDigit)) _ :=
        .argument mem_takeWhile head?_dropWhile hrest
      rwa [List.takeWhile_append_dropWhile] at hlexes
    · split at h
      · nomatch h
      · rename_i hnext
        obtain ⟨rfl, rfl⟩ := Prod.mk.inj (Except.ok.inj h)
        exact .add (by simpa using hnext) hrest
    · split at h
      · nomatch h
      · rename_i hnext
        obtain ⟨rfl, rfl⟩ := Prod.mk.inj (Except.ok.inj h)
        exact .sub (by simpa using hnext) hrest
    · split at h
      · rename_i hnext
        obtain ⟨rfl, rfl⟩ := Prod.mk.inj (Except.ok.inj h)
        obtain ⟨tail, rfl⟩ := List.head?_eq_some_iff.1 (beq_iff_eq.1 hnext)
        exact .pow hrest
      · rename_i hnext
        obtain ⟨rfl, rfl⟩ := Prod.mk.inj (Except.ok.inj h)
        exact .mul (by simpa using hnext) hrest
    · split at h
      · nomatch h
      · rename_i hnext
        obtain ⟨rfl, rfl⟩ := Prod.mk.inj (Except.ok.inj h)
        simp only [Bool.or_eq_true, beq_iff_eq, not_or] at hnext
        exact .div hnext.1 hnext.2 hrest
    · obtain ⟨rfl, rfl⟩ := Prod.mk.inj (Except.ok.inj h)
      exact .rem hrest
    · obtain ⟨rfl, rfl⟩ := Prod.mk.inj (Except.ok.inj h)
      exact .openParen hrest
    · obtain ⟨rfl, rfl⟩ := Prod.mk.inj (Except.ok.inj h)
      exact .closeParen hrest
    · nomatch h

/-- If a token is cut off, the others come from the rest. -/
private theorem scanAll_cons {c : Char} {cs rest : List Char} {t : Token} {ts : List Token} (hblank : isBlank c = false)
    (hscan : Token.scan c cs = .ok (t, rest)) (hrest : ∀ done, Token.scanAll rest done = .ok (done.reverse ++ ts))
    (done : List Token) : Token.scanAll (c :: cs) done = .ok (done.reverse ++ t :: ts) := by
  unfold Token.scanAll
  rw [if_neg (by simp [hblank])]
  split
  · rename_i t' rest' h
    obtain ⟨rfl, rfl⟩ := Prod.mk.inj (Except.ok.inj (hscan.symm.trans h))
    rw [hrest, List.reverse_cons, List.append_assoc, List.singleton_append]
  · rename_i e h
    rw [hscan] at h
    simp at h

private theorem isBlank_eq_false {c : Char} (hc : isNumberChar c = true) : isBlank c = false := by
  have hrange : 46 ≤ c.toNat ∧ c.toNat ≤ 57 := by
    simp only [isNumberChar, isDigit, Bool.or_eq_true, Bool.and_eq_true, decide_eq_true_eq, beq_iff_eq] at hc
    rcases hc with ⟨hlow, hhigh⟩ | rfl
    · exact ⟨Nat.le_trans (by decide) hlow, hhigh⟩
    · decide
  obtain ⟨hlow, hhigh⟩ := hrange
  simp only [isBlank, Bool.or_eq_false_iff, Bool.and_eq_false_iff, decide_eq_false_iff_not, beq_eq_false_iff_ne]
  omega

private theorem isNumberChar_of_isDigit {c : Char} (hc : isDigit c = true) : isNumberChar c = true := by
  rw [isNumberChar, hc, Bool.true_or]

private theorem scan_number {whole cs : List Char} {fraction : Option (List Char)}
    (hwhole : ∀ d ∈ whole, isDigit d = true) (hfraction : ∀ ds ∈ fraction, ∀ d ∈ ds, isDigit d = true)
    (hdigit : whole ≠ [] ∨ ∃ ds ∈ fraction, ds ≠ []) (hcs : ∀ c ∈ cs.head?, isNumberChar c = false) :
    ∃ c run, whole ++ fractionText fraction = c :: run ∧ isNumberChar c = true ∧
      Token.scan c (run ++ cs) = .ok (.number (Numeral.toFloat ⟨false, whole, fraction, none⟩), cs) := by
  have hrun : ∀ d ∈ whole ++ fractionText fraction, isNumberChar d = true := by
    intro d hd
    rcases List.mem_append.1 hd with hd | hd
    · exact isNumberChar_of_isDigit (hwhole d hd)
    · rcases fraction with _ | ds
      · exact absurd hd List.not_mem_nil
      · rcases List.mem_cons.1 hd with rfl | hd
        · decide
        · exact isNumberChar_of_isDigit (hfraction ds rfl d hd)
  have htext := ofText?_eq_some hwhole hfraction hdigit
  rcases hcons : whole ++ fractionText fraction with _ | ⟨c, run⟩
  · rw [hcons] at htext
    nomatch htext
  · rw [hcons] at hrun htext
    have hc : isNumberChar c = true := hrun c (List.mem_cons_self ..)
    have hrun' : ∀ d ∈ run, isNumberChar d = true := fun d hd => hrun d (List.mem_cons_of_mem _ hd)
    refine ⟨c, run, rfl, hc, ?_⟩
    unfold Token.scan
    rw [if_pos hc, takeWhile_run hrun' hcs, dropWhile_run hrun' hcs]
    dsimp only
    rw [htext]

/-- Every rule is a token that is cut off. -/
private theorem Lexes.scanAll {cs : List Char} {ts : List Token} (h : Lexes cs ts) (done : List Token) :
    Token.scanAll cs done = .ok (done.reverse ++ ts) := by
  induction h generalizing done with
  | nil =>
    unfold Token.scanAll
    rw [List.append_nil]
  | blank hc _ ih =>
    unfold Token.scanAll
    rw [if_pos hc, ih]
  | number hwhole hfraction hdigit hcs _ ih =>
    obtain ⟨c, run, htext, hc, hscan⟩ := scan_number hwhole hfraction hdigit hcs
    rw [htext]
    exact scanAll_cons (isBlank_eq_false hc) hscan ih done
  | @argument ds cs ts hds hcs _ ih =>
    have hscan : Token.scan '$' (ds ++ cs) = .ok (.argument (digitsValue ds - 1), cs) := by
      show Except.ok (Token.argument (digitsValue ((ds ++ cs).takeWhile isDigit) - 1), (ds ++ cs).dropWhile isDigit) = _
      rw [takeWhile_run hds hcs, dropWhile_run hds hcs]
    exact scanAll_cons (by decide) hscan ih done
  | @add cs ts hnext _ ih =>
    have hscan : Token.scan '+' cs = .ok (.operator .add, cs) := by
      unfold Token.scan
      rw [if_neg (by decide)]
      exact if_neg (by simpa using hnext)
    exact scanAll_cons (by decide) hscan ih done
  | @sub cs ts hnext _ ih =>
    have hscan : Token.scan '-' cs = .ok (.operator .sub, cs) := by
      unfold Token.scan
      rw [if_neg (by decide)]
      exact if_neg (by simpa using hnext)
    exact scanAll_cons (by decide) hscan ih done
  | @mul cs ts hnext _ ih =>
    have hscan : Token.scan '*' cs = .ok (.operator .mul, cs) := by
      unfold Token.scan
      rw [if_neg (by decide)]
      exact if_neg (by simpa using hnext)
    exact scanAll_cons (by decide) hscan ih done
  | @pow cs ts _ ih =>
    have hscan : Token.scan '*' ('*' :: cs) = .ok (.operator .pow, cs) := rfl
    exact scanAll_cons (by decide) hscan ih done
  | @div cs ts hslash hasterisk _ ih =>
    have hscan : Token.scan '/' cs = .ok (.operator .div, cs) := by
      unfold Token.scan
      rw [if_neg (by decide)]
      exact if_neg (by simp [hslash, hasterisk])
    exact scanAll_cons (by decide) hscan ih done
  | @rem cs ts _ ih => exact scanAll_cons (by decide) (rfl : Token.scan '%' cs = .ok (.operator .rem, cs)) ih done
  | @openParen cs ts _ ih => exact scanAll_cons (by decide) (rfl : Token.scan '(' cs = .ok (.openParen, cs)) ih done
  | @closeParen cs ts _ ih => exact scanAll_cons (by decide) (rfl : Token.scan ')' cs = .ok (.closeParen, cs)) ih done

private theorem exists_lexes {cs : List Char} {done ts : List Token} (h : Token.scanAll cs done = .ok ts) :
    ∃ us, Lexes cs us ∧ ts = done.reverse ++ us := by
  fun_induction Token.scanAll cs done with
  | case1 done => exact ⟨[], .nil, by rw [List.append_nil]; exact (Except.ok.inj h).symm⟩
  | case2 done c cs hblank ih =>
    obtain ⟨us, hus, rfl⟩ := ih h
    exact ⟨us, .blank hblank hus, rfl⟩
  | case3 done c cs hblank t rest hscan hlen ih =>
    obtain ⟨us, hus, rfl⟩ := ih h
    exact ⟨t :: us, .of_scan hscan hus, by rw [List.reverse_cons, List.append_assoc, List.singleton_append]⟩
  | case4 done c cs hblank e hscan => nomatch h

/-- A text is cut into tokens by the rules. -/
theorem ofChars_eq_ok_iff {cs : List Char} {ts : List Token} : Token.ofChars cs = .ok ts ↔ Lexes cs ts := by
  constructor
  · intro h
    obtain ⟨us, hus, rfl⟩ := exists_lexes h
    exact hus
  · exact fun h => h.scanAll []

/-! ### References -/

/-- The numbers after the dollar signs of a text. -/
def references : List Char → List Nat
  | [] => []
  | c :: cs => if c = '$' then digitsValue (cs.takeWhile isDigit) :: references cs else references cs

/-- The indices of the arguments among tokens. -/
def Token.arguments (ts : List Token) : List Nat :=
  ts.filterMap fun
    | .argument i => some i
    | _ => none

theorem references_run {run : List Char} (hrun : '$' ∉ run) (cs : List Char) :
    references (run ++ cs) = references cs := by
  induction run with
  | nil => rfl
  | cons c run ih =>
    have hc : c ≠ '$' := fun h => hrun (h ▸ List.mem_cons_self ..)
    rw [List.cons_append, references, if_neg hc]
    exact ih fun h => hrun (List.mem_cons_of_mem _ h)

/-- The arguments of a text are its references, counted from zero. -/
theorem Lexes.references {cs : List Char} {ts : List Token} (h : Lexes cs ts) :
    Token.arguments ts = (references cs).map (· - 1) := by
  induction h with
  | nil => rfl
  | @blank c cs ts hc _ ih =>
    have hne : c ≠ '$' := by
      rintro rfl
      exact absurd hc (by decide)
    rw [ih, Formula.references, if_neg hne]
  | @number whole fraction cs ts hwhole hfraction _ _ _ ih =>
    have hnone : '$' ∉ whole ++ fractionText fraction := by
      intro hmem
      rcases List.mem_append.1 hmem with hmem | hmem
      · exact absurd (hwhole _ hmem) (by decide)
      · rcases fraction with _ | ds
        · exact absurd hmem List.not_mem_nil
        · rcases List.mem_cons.1 hmem with hmem | hmem
          · exact absurd hmem (by decide)
          · exact absurd (hfraction ds rfl _ hmem) (by decide)
    rw [references_run hnone, ← ih]
    rfl
  | @argument ds cs ts hds hcs _ ih =>
    have hnone : '$' ∉ ds := fun hmem => absurd (hds _ hmem) (by decide)
    rw [Formula.references, if_pos rfl, takeWhile_run hds hcs, references_run hnone, List.map_cons, ← ih]
    rfl
  | pow _ ih =>
    rw [Formula.references, if_neg (by decide), Formula.references, if_neg (by decide), ← ih]
    rfl
  | add _ _ ih | sub _ _ ih | mul _ _ ih | div _ _ _ ih | rem _ ih | openParen _ ih | closeParen _ ih =>
    rw [Formula.references, if_neg (by decide), ← ih]
    rfl

/-- Every dollar sign is followed by digits, and by those of a number from one up to `arity`. -/
def ReferencesInRange (arity : Nat) (cs : List Char) : Prop :=
  ∀ before after, cs = before ++ '$' :: after → after.takeWhile isDigit ≠ [] ∧
    1 ≤ digitsValue (after.takeWhile isDigit) ∧ digitsValue (after.takeWhile isDigit) ≤ arity

theorem firstUnresolved?_eq_none_iff {arity : Nat} {cs : List Char} :
    firstUnresolved? arity cs = none ↔ ReferencesInRange arity cs := by
  induction cs with
  | nil => exact ⟨fun _ before after h => by simp at h, fun _ => rfl⟩
  | cons c cs ih =>
    have hresolves : resolves arity (cs.takeWhile isDigit) = true ↔ cs.takeWhile isDigit ≠ [] ∧
        1 ≤ digitsValue (cs.takeWhile isDigit) ∧ digitsValue (cs.takeWhile isDigit) ≤ arity := by
      simp [resolves]
    constructor
    · intro h before after hsplit
      rw [firstUnresolved?] at h
      split at h
      · nomatch h
      · rename_i hc
        rcases before with _ | ⟨b, before⟩
        · obtain ⟨rfl, rfl⟩ := List.cons.inj hsplit
          exact hresolves.1 (by simpa using hc)
        · exact ih.1 h before after (List.cons.inj hsplit).2
    · intro h
      rw [firstUnresolved?, if_neg, ih]
      · intro before after hsplit
        exact h (c :: before) after (by rw [hsplit, List.cons_append])
      · intro hc
        simp only [Bool.and_eq_true, beq_iff_eq, Bool.not_eq_true'] at hc
        obtain ⟨rfl, hunresolved⟩ := hc
        rw [hresolves.2 (h [] cs rfl)] at hunresolved
        nomatch hunresolved

end CellGraph.Formula
