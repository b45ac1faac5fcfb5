import CellGraph.Proofs.Formula.Execute

/-!
# The references of a formula

A reference is a dollar sign with the digits that come next, and it names an argument if these are there and are those of
a number from one up to the arity (`NamesArgument`).  The first reference that names none is found
(`firstUnresolved?_eq_some_iff`), and a compilation fails with it before anything else is looked at.  If all of them name
an argument, the arity does not matter any more.  The arguments that the code reads are the references of the text in
their order, and a run stops at a missing argument only if the code reads one that has no value
(`exists_argument_of_run`).
-/

namespace CellGraph.Formula

/-- Whether the digits after a dollar sign are those of a number from one up to `arity`. -/
def NamesArgument (arity : Nat) (ds : List Char) : Prop := ds ≠ [] ∧ 1 ≤ digitsValue ds ∧ digitsValue ds ≤ arity

variable {arity larger : Nat} {cs digits : List Char} {formula : String}

theorem resolves_iff {ds : List Char} : resolves arity ds = true ↔ NamesArgument arity ds := by
  simp [resolves, NamesArgument]

/-! ### The first reference that names no argument -/

/-- The digits after a dollar sign end before the next one. -/
private theorem takeWhile_before_dollar (before after : List Char) :
    (before ++ '$' :: after).takeWhile isDigit = before.takeWhile isDigit := by
  have hdollar : ('$' :: after).takeWhile isDigit = [] := List.takeWhile_cons_of_neg (by decide)
  rw [List.takeWhile_append, hdollar, List.append_nil]
  split
  · rename_i hlen
    exact ((List.takeWhile_prefix _).eq_of_length hlen).symm
  · rfl

theorem referencesInRange_nil : ReferencesInRange arity [] := fun before after h => by simp at h

/-- What holds after each dollar sign, with one more character in front. -/
theorem forall_dollar_cons_iff {P : List Char → Prop} {c : Char} :
    (∀ before after, c :: cs = before ++ '$' :: after → P after) ↔
      (c = '$' → P cs) ∧ ∀ before after, cs = before ++ '$' :: after → P after := by
  constructor
  · intro h
    refine ⟨fun hc => h [] cs (by rw [hc, List.nil_append]), fun before after hsplit => ?_⟩
    exact h (c :: before) after (by rw [hsplit, List.cons_append])
  · rintro ⟨hhead, hrest⟩ before after hsplit
    rcases before with _ | ⟨b, before⟩
    · obtain ⟨rfl, rfl⟩ := List.cons.inj hsplit
      exact hhead rfl
    · exact hrest before after (List.cons.inj hsplit).2

theorem referencesInRange_cons_iff {c : Char} : ReferencesInRange arity (c :: cs) ↔
    (c = '$' → NamesArgument arity (cs.takeWhile isDigit)) ∧ ReferencesInRange arity cs :=
  forall_dollar_cons_iff

theorem ReferencesInRange.mono (h : ReferencesInRange arity cs) (hle : arity ≤ larger) : ReferencesInRange larger cs :=
  fun before after hsplit => ⟨(h before after hsplit).1, (h before after hsplit).2.1, (h before after hsplit).2.2.trans hle⟩

/-- A reference that is found names no argument, and all before it do. -/
theorem firstUnresolved?_eq_some_iff : firstUnresolved? arity cs = some digits ↔
    ∃ before after, cs = before ++ '$' :: after ∧ ReferencesInRange arity before ∧ ¬ NamesArgument arity digits ∧
      digits = after.takeWhile isDigit := by
  induction cs with
  | nil => simp [firstUnresolved?]
  | cons c cs ih =>
    have hfound : (c == '$' && !resolves arity (cs.takeWhile isDigit)) = true ↔
        ¬ (c = '$' → NamesArgument arity (cs.takeWhile isDigit)) := by
      simp [← resolves_iff]
    rw [firstUnresolved?]
    split
    · rename_i hhead
      rw [hfound] at hhead
      constructor
      · rintro ⟨⟩
        obtain ⟨rfl, hnames⟩ := Classical.not_imp.1 hhead
        exact ⟨[], cs, rfl, referencesInRange_nil, hnames, rfl⟩
      · rintro ⟨before, after, hsplit, hbefore, -, rfl⟩
        rcases before with _ | ⟨b, before⟩
        · rw [(List.cons.inj hsplit).2]
        · have hcs : cs = before ++ '$' :: after := (List.cons.inj hsplit).2
          rw [hcs, takeWhile_before_dollar, (List.cons.inj hsplit).1] at hhead
          exact absurd (referencesInRange_cons_iff.1 hbefore).1 hhead
    · rename_i hhead
      rw [hfound, not_not] at hhead
      rw [ih]
      constructor
      · rintro ⟨before, after, rfl, hbefore, hdigits, htake⟩
        rw [takeWhile_before_dollar] at hhead
        exact ⟨c :: before, after, rfl, referencesInRange_cons_iff.2 ⟨hhead, hbefore⟩, hdigits, htake⟩
      · rintro ⟨before, after, hsplit, hbefore, hdigits, htake⟩
        rcases before with _ | ⟨b, before⟩
        · obtain ⟨rfl, rfl⟩ := List.cons.inj hsplit
          exact absurd (htake ▸ hhead rfl) hdigits
        · exact ⟨before, after, (List.cons.inj hsplit).2, (referencesInRange_cons_iff.1 hbefore).2, hdigits, htake⟩

/-! ### Compiling -/

/-- A reference that names no argument is reported whatever else is wrong with the formula. -/
theorem compile_of_unresolved (h : firstUnresolved? arity (sanitize formula.toList) = some digits) :
    compile formula arity = .error (.unresolvedReference (.ofList ('$' :: digits))) := by
  rw [compile, h]

/-- If all references name an argument, a formula is compiled or it cannot be built. -/
theorem compile_cases_of_inRange (h : ReferencesInRange arity (sanitize formula.toList)) :
    (∃ code, compile formula arity = .ok code) ∨ ∃ f, compile formula arity = .error (.build f) := by
  rw [compile, firstUnresolved?_eq_none_iff.2 h]
  dsimp only
  split
  · exact Or.inr ⟨_, rfl⟩
  · split
    · exact Or.inr ⟨_, rfl⟩
    · exact Or.inl ⟨_, rfl⟩

theorem compile_eq_unresolved_iff {reference : String} :
    compile formula arity = .error (.unresolvedReference reference) ↔
      ∃ digits, firstUnresolved? arity (sanitize formula.toList) = some digits ∧
        reference = .ofList ('$' :: digits) := by
  constructor
  · intro h
    rcases hfirst : firstUnresolved? arity (sanitize formula.toList) with _ | digits
    · rcases compile_cases_of_inRange (firstUnresolved?_eq_none_iff.1 hfirst) with ⟨code, hcode⟩ | ⟨f, hf⟩
      · exact nomatch hcode.symm.trans h
      · exact nomatch hf.symm.trans h
    · rw [compile_of_unresolved hfirst] at h
      exact ⟨digits, rfl, (CompileError.unresolvedReference.inj (Except.error.inj h)).symm⟩
  · rintro ⟨digits, hfirst, rfl⟩
    exact compile_of_unresolved hfirst

theorem compile_eq_of_le (h : ReferencesInRange arity (sanitize formula.toList)) (hle : arity ≤ larger) :
    compile formula larger = compile formula arity := by
  rw [compile, compile, firstUnresolved?_eq_none_iff.2 h, firstUnresolved?_eq_none_iff.2 (h.mono hle)]

/-! ### Arguments in the code -/

/-- The indices of the arguments that code reads, from the first instruction to the last. -/
def Instr.arguments (code : List Instr) : List Nat :=
  code.filterMap fun
    | .argument i => some i
    | _ => none

theorem Instr.mem_arguments {code : List Instr} {i : Nat} : i ∈ Instr.arguments code ↔ .argument i ∈ code := by
  rw [Instr.arguments, List.mem_filterMap]
  constructor
  · rintro ⟨instr, hmem, hi⟩
    cases instr with
    | argument j => exact Option.some.inj hi ▸ hmem
    | _ => nomatch hi
  · exact fun hmem => ⟨_, hmem, rfl⟩

/-- The code of a tree reads the arguments of its tokens from left to right. -/
theorem arguments_postorder (t : ParseTree) : Instr.arguments t.postorder = Token.arguments t.tokens := by
  have hcode (code code' : List Instr) :
      Instr.arguments (code ++ code') = Instr.arguments code ++ Instr.arguments code' := List.filterMap_append
  have htokens (ts ts' : List Token) :
      Token.arguments (ts ++ ts') = Token.arguments ts ++ Token.arguments ts' := List.filterMap_append
  induction t with
  | number x => rfl
  | argument i => rfl
  | sign negative t ih =>
    cases negative with
    | true =>
      rw [ParseTree.postorder, hcode, ih]
      exact List.append_nil _
    | false => exact ih
  | binary o l r ihl ihr =>
    rw [ParseTree.postorder, hcode, hcode, ihl, ihr, ParseTree.tokens, htokens]
    exact List.append_nil _

/-- The code reads the arguments that the text refers to, in the order of the text. -/
theorem succ_arguments_of_compile {code : List Instr} (h : compile formula arity = .ok code) :
    (Instr.arguments code).map (· + 1) = references (sanitize formula.toList) := by
  obtain ⟨hrefs, ts, t, hts, ht, rfl⟩ := compile_eq_ok_iff.1 h
  rw [arguments_postorder, ht.tokens_eq, arguments_filter, hts.references, List.map_map]
  exact (List.map_congr_left fun k hk => Nat.sub_add_cancel (hrefs.of_mem hk).1).trans (List.map_id _)

theorem lt_of_mem_arguments {code : List Instr} (h : compile formula arity = .ok code) {i : Nat}
    (hi : i ∈ Instr.arguments code) : i < arity := by
  have hk : i + 1 ∈ references (sanitize formula.toList) := succ_arguments_of_compile h ▸ List.mem_map_of_mem hi
  exact ((compile_eq_ok_iff.1 h).1.of_mem hk).2

/-! ### Missing arguments -/

/-- An instruction stops at a missing argument only if it reads that one. -/
private theorem eq_argument_of_step {args : List (Option Value)} {instr : Instr} {stack : List Float} {p : Nat}
    (h : instr.step args stack = .error (.missingArgument p)) :
    ∃ i, instr = .argument i ∧ argument args i = .error (.missingArgument p) := by
  cases instr with
  | push x => cases h
  | argument i =>
    rw [Instr.step] at h
    split at h
    · cases h
    · rename_i e he
      exact ⟨i, rfl, Except.error.inj h ▸ he⟩
  | negate => rcases stack with _ | ⟨x, stack⟩ <;> cases h
  | binary o => rcases stack with _ | ⟨r, _ | ⟨l, stack⟩⟩ <;> cases h

/-- A run stops at a missing argument only if the code reads it. -/
theorem exists_argument_of_run {args : List (Option Value)} {code : List Instr} {stack : List Float} {p : Nat}
    (h : Instr.run args code stack = .error (.missingArgument p)) :
    ∃ i ∈ Instr.arguments code, argument args i = .error (.missingArgument p) := by
  induction code generalizing stack with
  | nil => nomatch h
  | cons instr code ih =>
    rw [Instr.run] at h
    split at h
    · obtain ⟨i, hi, hmissing⟩ := ih h
      exact ⟨i, Instr.mem_arguments.2 (List.mem_cons_of_mem _ (Instr.mem_arguments.1 hi)), hmissing⟩
    · rename_i e he
      obtain ⟨i, rfl, hmissing⟩ := eq_argument_of_step (he.trans h)
      exact ⟨i, Instr.mem_arguments.2 (List.mem_cons_self ..), hmissing⟩

/-- An argument is missing at its own position, and if it is one of those that are given, it has no value. -/
private theorem getElem?_of_missing {args : List (Option Value)} {i p : Nat}
    (h : argument args i = .error (.missingArgument p)) (hi : i < args.length) : p = i + 1 ∧ args[i]? = some none := by
  unfold argument at h
  split at h
  · split at h <;> nomatch h
  · rename_i hnone
    refine ⟨(EvalError.missingArgument.inj (Except.error.inj h)).symm, ?_⟩
    rw [List.getElem?_eq_getElem hi] at hnone ⊢
    rcases hv : args[i] with _ | v
    · rfl
    · exact absurd (congrArg some hv) (hnone v)

theorem exists_argument_of_execute {args : List (Option Value)} {code : List Instr} {p : Nat}
    (h : execute code args = .error (.missingArgument p)) (hargs : ∀ i ∈ Instr.arguments code, i < args.length) :
    ∃ i ∈ Instr.arguments code, p = i + 1 ∧ args[i]? = some none := by
  rw [execute] at h
  split at h
  · cases h
  · cases h
  · rename_i e he
    obtain ⟨i, hi, hmissing⟩ := exists_argument_of_run (Except.error.inj h ▸ he)
    exact ⟨i, hi, getElem?_of_missing hmissing (hargs i hi)⟩

/-- A compilation fails with a reference exactly if one names no argument, and it is the first of these.  If there is
none, the formula is compiled or cannot be built, and that is the same for every larger arity.  Code reads the arguments
that the text refers to, in the order of the text and all below the arity, so on that many arguments a run that stops at a
missing one has come to one without a value. -/
theorem compile_references (formula : String) (arity : Nat) :
    (∀ reference, compile formula arity = .error (.unresolvedReference reference) ↔
      ∃ before after, sanitize formula.toList = before ++ '$' :: after ∧ ReferencesInRange arity before ∧
        ¬ NamesArgument arity (after.takeWhile isDigit) ∧ reference = .ofList ('$' :: after.takeWhile isDigit)) ∧
    ((∃ reference, compile formula arity = .error (.unresolvedReference reference)) ↔
      ∃ before after, sanitize formula.toList = before ++ '$' :: after ∧
        ¬ NamesArgument arity (after.takeWhile isDigit)) ∧
    (ReferencesInRange arity (sanitize formula.toList) →
      ((∃ code, compile formula arity = .ok code) ∨ ∃ f, compile formula arity = .error (.build f)) ∧
      ∀ larger, arity ≤ larger → compile formula larger = compile formula arity) ∧
    ∀ code, compile formula arity = .ok code →
      (Instr.arguments code).map (· + 1) = references (sanitize formula.toList) ∧
      (∀ i ∈ Instr.arguments code, i < arity) ∧
      ∀ args p, args.length = arity → execute code args = .error (.missingArgument p) →
        ∃ i ∈ Instr.arguments code, p = i + 1 ∧ args[i]? = some none := by
  refine ⟨?_, ?_, ?_, ?_⟩
  · intro reference
    rw [compile_eq_unresolved_iff]
    constructor
    · rintro ⟨digits, hfirst, rfl⟩
      obtain ⟨before, after, hsplit, hbefore, hnone, rfl⟩ := firstUnresolved?_eq_some_iff.1 hfirst
      exact ⟨before, after, hsplit, hbefore, hnone, rfl⟩
    · rintro ⟨before, after, hsplit, hbefore, hnone, rfl⟩
      exact ⟨_, firstUnresolved?_eq_some_iff.2 ⟨before, after, hsplit, hbefore, hnone, rfl⟩, rfl⟩
  · constructor
    · rintro ⟨reference, h⟩
      obtain ⟨digits, hfirst, -⟩ := compile_eq_unresolved_iff.1 h
      obtain ⟨before, after, hsplit, -, hnone, rfl⟩ := firstUnresolved?_eq_some_iff.1 hfirst
      exact ⟨before, after, hsplit, hnone⟩
    · rintro ⟨before, after, hsplit, hnone⟩
      rcases hfirst : firstUnresolved? arity (sanitize formula.toList) with _ | digits
      · exact absurd (firstUnresolved?_eq_none_iff.1 hfirst before after hsplit) hnone
      · exact ⟨_, compile_of_unresolved hfirst⟩
  · exact fun hrefs => ⟨compile_cases_of_inRange hrefs, fun larger hle => compile_eq_of_le hrefs hle⟩
  · intro code hcode
    have hbelow : ∀ i ∈ Instr.arguments code, i < arity := fun i hi => lt_of_mem_arguments hcode hi
    refine ⟨succ_arguments_of_compile hcode, hbelow, fun args p hlen h => ?_⟩
    exact exists_argument_of_execute h fun i hi => hlen ▸ hbelow i hi

/-- A letter between a dollar sign and its digit does not count.  With one argument the first reference is reported, and
with two, of which the second one has no value, a run stops at that one. -/
theorem compile_references_of_letter :
    compile "$02-$x1" 1 = .error (.unresolvedReference "$02") ∧
      ∃ code, compile "$02-$x1" 2 = .ok code ∧ compile "$02-$x1" 3 = .ok code ∧
        (Instr.arguments code).map (· + 1) = [2, 1] ∧ execute code [some .null, none] = .error (.missingArgument 2) ∧
        ∃ i ∈ Instr.arguments code, 2 = i + 1 ∧ ([some .null, none] : List (Option Value))[i]? = some none := by
  have hchars : sanitize "$02-$x1".toList = ['$', '0', '2', '-', '$', '1'] := by decide
  have hcode : compile "$02-$x1" 2 = .ok (ParseTree.binary .sub (.argument 1) (.argument 0)).postorder := by
    have hlast : Lexes ('$' :: (['1'] ++ [])) [.argument 0] := .argument (List.forall_mem_singleton.2 rfl) nofun .nil
    have hlexes : Lexes ('$' :: (['0', '2'] ++ '-' :: '$' :: (['1'] ++ [])))
        [.argument 1, .operator .sub, .argument 0] := by
      refine .argument (List.forall_mem_cons.2 ⟨rfl, List.forall_mem_singleton.2 rfl⟩) ?_ (.sub (by simp) hlast)
      rintro c ⟨⟩
      rfl
    have hderives : Derives .expr [.argument 1, .operator .sub, .argument 0]
        (.binary .sub (.argument 1) (.argument 0)) :=
      .sum (by decide) (.term (.power (.unary (.primary (.argument 1))))) (.power (.unary (.primary (.argument 0))))
    rw [compile_eq_ok_iff, hchars]
    exact ⟨firstUnresolved?_eq_none_iff.1 (by decide), _, _, hlexes, hderives, rfl⟩
  have hrefs : ReferencesInRange 2 (sanitize "$02-$x1".toList) := (compile_eq_ok_iff.1 hcode).1
  have hunresolved : ∃ before after, sanitize "$02-$x1".toList = before ++ '$' :: after ∧ ReferencesInRange 1 before ∧
      ¬ NamesArgument 1 (after.takeWhile isDigit) ∧ "$02" = String.ofList ('$' :: after.takeWhile isDigit) :=
    ⟨[], ['0', '2', '-', '$', '1'], hchars, referencesInRange_nil, resolves_iff.not.1 (by decide), rfl⟩
  have hrun : execute (ParseTree.binary .sub (.argument 1) (.argument 0)).postorder [some .null, none] =
      .error (.missingArgument 2) := rfl
  obtain ⟨harguments, -, hmissing⟩ := (compile_references "$02-$x1" 2).2.2.2 _ hcode
  refine ⟨((compile_references "$02-$x1" 1).1 _).2 hunresolved, _, hcode, ?_, ?_, hrun, hmissing _ 2 rfl hrun⟩
  · rw [((compile_references "$02-$x1" 2).2.2.1 hrefs).2 3 (by decide), hcode]
  · rw [harguments, hchars]
    decide

end CellGraph.Formula
