import CellGraph.Proofs.Formula.Compile

/-!
# What the code of a formula computes

A tree is evaluated from left to right, and the first fault wins (`ParseTree.eval`).  Its code does the same on any
stack (`run_postorder`), so it never runs out of operands.  A fault comes from an argument, and it is the one of the
first reference in the text whose argument is missing or has no number.
-/

namespace CellGraph.Formula

/-- The value of a tree on the values of the arguments.  The left operand goes first. -/
def ParseTree.eval (args : List (Option Value)) : ParseTree → Except EvalError Float
  | .number x => .ok x
  | .argument i => Formula.argument args i
  | .sign negative t =>
    match t.eval args with
    | .ok x => .ok (if negative then -x else x)
    | .error e => .error e
  | .binary o l r =>
    match l.eval args with
    | .error e => .error e
    | .ok x =>
      match r.eval args with
      | .error e => .error e
      | .ok y => .ok (o.apply x y)

/-- The code of a tree puts its value on the stack, whatever comes after and whatever is there. -/
theorem run_postorder (args : List (Option Value)) (t : ParseTree) (code : List Instr) (stack : List Float) :
    Instr.run args (t.postorder ++ code) stack = (t.eval args).bind fun x => Instr.run args code (x :: stack) := by
  induction t generalizing code stack with
  | number x => rfl
  | argument i =>
    rw [ParseTree.postorder, List.singleton_append, Instr.run, Instr.step, ParseTree.eval]
    rcases Formula.argument args i with e | x <;> rfl
  | sign negative t ih =>
    cases negative with
    | true =>
      rw [ParseTree.postorder, List.append_assoc, ih, ParseTree.eval]
      rcases t.eval args with e | x <;> rfl
    | false =>
      rw [ParseTree.postorder, ih, ParseTree.eval]
      rcases t.eval args with e | x <;> rfl
  | binary o l r ihl ihr =>
    rw [ParseTree.postorder, List.append_assoc, List.append_assoc, ihl, ParseTree.eval]
    rcases l.eval args with e | x
    · rfl
    · rw [Except.bind, ihr]
      dsimp only
      rcases r.eval args with e | y <;> rfl

theorem execute_postorder (args : List (Option Value)) (t : ParseTree) : execute t.postorder args = t.eval args := by
  have hrun := run_postorder args t [] []
  rw [List.append_nil] at hrun
  rw [execute, hrun]
  rcases t.eval args with e | x <;> rfl

/-! ### Faults -/

/-- The fault of a run, if it has one. -/
def faultOf : Except EvalError Float → Option EvalError
  | .ok _ => none
  | .error e => some e

private theorem faultOf_eq_none_iff {r : Except EvalError Float} : faultOf r = none ↔ ∃ x, r = .ok x := by
  cases r <;> simp [faultOf]

theorem faultOf_eq_some_iff {r : Except EvalError Float} {e : EvalError} :
    faultOf r = some e ↔ r = .error e := by
  cases r <;> simp [faultOf]

/-- The fault of a tree is the first one among its arguments. -/
theorem faultOf_eval (args : List (Option Value)) (t : ParseTree) :
    faultOf (t.eval args) = (Token.arguments t.tokens).findSome? fun i => faultOf (argument args i) := by
  induction t with
  | number x => rfl
  | argument i =>
    have hone : Token.arguments (ParseTree.argument i).tokens = [i] := rfl
    rw [hone, List.findSome?_cons, List.findSome?_nil, ParseTree.eval]
    rcases faultOf (argument args i) with _ | e <;> rfl
  | sign negative t ih =>
    have hrest : Token.arguments (ParseTree.sign negative t).tokens = Token.arguments t.tokens := rfl
    rw [hrest, ← ih, ParseTree.eval]
    rcases t.eval args with e | x <;> rfl
  | binary o l r ihl ihr =>
    have hsplit : Token.arguments (ParseTree.binary o l r).tokens =
        Token.arguments l.tokens ++ Token.arguments r.tokens := List.filterMap_append
    rw [hsplit, List.findSome?_append, ← ihl, ← ihr, ParseTree.eval]
    rcases l.eval args with e | x
    · rfl
    · rcases r.eval args with e | y <;> rfl

theorem arguments_filter (ts : List Token) :
    Token.arguments (ts.filter fun t => !t.isParen) = Token.arguments ts := by
  induction ts with
  | nil => rfl
  | cons t ts ih =>
    cases t with
    | openParen => exact ih
    | closeParen => exact ih
    | argument i => exact congrArg (i :: ·) ih
    | _ => exact ih

/-- The references of a text have numbers from one up to `arity`. -/
theorem ReferencesInRange.of_mem {arity k : Nat} {cs : List Char} (h : ReferencesInRange arity cs)
    (hk : k ∈ references cs) : 1 ≤ k ∧ k ≤ arity := by
  induction cs with
  | nil => exact absurd hk List.not_mem_nil
  | cons c cs ih =>
    have hrest : ReferencesInRange arity cs := by
      intro before after hsplit
      exact h (c :: before) after (by rw [hsplit, List.cons_append])
    rw [references] at hk
    split at hk
    · rename_i hc
      rcases List.mem_cons.1 hk with rfl | hk
      · exact (h [] cs (by rw [hc, List.nil_append])).2
      · exact ih hrest hk
    · exact ih hrest hk

/-- Whether an argument, counted from one, has a number. -/
def IsNumeric (args : List (Option Value)) (k : Nat) : Prop :=
  ∃ v x, args[k - 1]? = some (some v) ∧ v.toFloat? = some x

theorem argument_of_isNumeric {args : List (Option Value)} {k : Nat} (h : IsNumeric args k) :
    ∃ x, argument args (k - 1) = .ok x := by
  obtain ⟨v, x, hv, hx⟩ := h
  exact ⟨x, by rw [argument, hv]; dsimp only; rw [hx]⟩

private theorem argument_of_missing {args : List (Option Value)} {k : Nat} (hk : 1 ≤ k)
    (h : ∀ v, args[k - 1]? ≠ some (some v)) : argument args (k - 1) = .error (.missingArgument k) := by
  unfold argument
  split
  · rename_i v hv
    exact absurd hv (h v)
  · rw [Nat.sub_add_cancel hk]

private theorem argument_of_not_numeric {args : List (Option Value)} {k : Nat} (hk : 1 ≤ k) {v : Value}
    (hv : args[k - 1]? = some (some v)) (hx : v.toFloat? = none) :
    argument args (k - 1) = .error (.notNumeric k v) := by
  rw [argument, hv]
  dsimp only
  rw [hx, Nat.sub_add_cancel hk]

theorem argument_ne_unbalanced (args : List (Option Value)) (i : Nat) :
    argument args i ≠ .error .unbalanced := by
  unfold argument
  split
  · split <;> exact nofun
  · exact nofun

/-- The code of a formula computes what its tree does, on arguments of any number.  It is never unbalanced.  If all
references have numbers there is a result, and otherwise the error names the first reference of the text that has
none. -/
theorem execute_compile {formula : String} {arity : Nat} {code : List Instr} (h : compile formula arity = .ok code)
    (args : List (Option Value)) :
    (∃ ts t, Lexes (sanitize formula.toList) ts ∧ Derives .expr ts t) ∧
      (∀ ts t, Lexes (sanitize formula.toList) ts → Derives .expr ts t → execute code args = t.eval args) ∧
      execute code args ≠ .error .unbalanced ∧
      ((∀ k ∈ references (sanitize formula.toList), IsNumeric args k) → ∃ x, execute code args = .ok x) ∧
      ∀ earlier k later, references (sanitize formula.toList) = earlier ++ k :: later →
        (∀ j ∈ earlier, IsNumeric args j) →
        ((∀ v, args[k - 1]? ≠ some (some v)) → execute code args = .error (.missingArgument k)) ∧
        ∀ v, args[k - 1]? = some (some v) → v.toFloat? = none → execute code args = .error (.notNumeric k v) := by
  obtain ⟨hrefs, ts, t, hts, ht, rfl⟩ := compile_eq_ok_iff.1 h
  have hfault : faultOf (t.eval args) =
      (references (sanitize formula.toList)).findSome? fun k => faultOf (argument args (k - 1)) := by
    rw [faultOf_eval, ht.tokens_eq, arguments_filter, hts.references, List.findSome?_map]
    rfl
  have hnumeric : ∀ k, IsNumeric args k → faultOf (argument args (k - 1)) = none :=
    fun k hk => faultOf_eq_none_iff.2 (argument_of_isNumeric hk)
  rw [execute_postorder]
  refine ⟨⟨ts, t, hts, ht⟩, ?_, ?_, ?_, ?_⟩
  · intro ts' t' hts' ht'
    rw [(tree_unique hts ht hts' ht').2]
  · intro hunbalanced
    rw [hunbalanced] at hfault
    obtain ⟨k, -, hk⟩ := List.exists_of_findSome?_eq_some hfault.symm
    exact argument_ne_unbalanced args (k - 1) (faultOf_eq_some_iff.1 hk)
  · intro hall
    rw [← faultOf_eq_none_iff, hfault, List.findSome?_eq_none_iff]
    exact fun k hk => hnumeric k (hall k hk)
  · intro earlier k later hsplit hearlier
    have hk : 1 ≤ k := (hrefs.of_mem (hsplit ▸ List.mem_append_right _ (List.mem_cons_self ..))).1
    have hfirst : ∀ e, argument args (k - 1) = .error e → t.eval args = .error e := by
      intro e he
      have hnone : earlier.findSome? (fun k => faultOf (argument args (k - 1))) = none :=
        List.findSome?_eq_none_iff.2 fun j hj => hnumeric j (hearlier j hj)
      rw [← faultOf_eq_some_iff, hfault, hsplit, List.findSome?_append, hnone, List.findSome?_cons, he]
      rfl
    exact ⟨fun hmissing => hfirst _ (argument_of_missing hk hmissing),
      fun v hv hx => hfirst _ (argument_of_not_numeric hk hv hx)⟩

/-- Of two arguments that are missing, the one that comes first in the text is named. -/
theorem execute_compile_of_missing :
    ∃ code, compile "$2-$1" 2 = .ok code ∧ execute code [] = .error (.missingArgument 2) := by
  have hchars : sanitize "$2-$1".toList = ['$', '2', '-', '$', '1'] := by decide
  have hlast : Lexes ('$' :: (['1'] ++ [])) [.argument 0] := .argument (List.forall_mem_singleton.2 rfl) nofun .nil
  have hlexes : Lexes ('$' :: (['2'] ++ '-' :: '$' :: (['1'] ++ []))) [.argument 1, .operator .sub, .argument 0] := by
    refine .argument (List.forall_mem_singleton.2 rfl) ?_ (.sub (by simp) hlast)
    rintro c ⟨⟩
    rfl
  have hderives : Derives .expr [.argument 1, .operator .sub, .argument 0] (.binary .sub (.argument 1) (.argument 0)) :=
    .sum (by decide) (.term (.power (.unary (.primary (.argument 1))))) (.power (.unary (.primary (.argument 0))))
  have h : compile "$2-$1" 2 = .ok (ParseTree.binary .sub (.argument 1) (.argument 0)).postorder := by
    rw [compile_eq_ok_iff, hchars]
    exact ⟨firstUnresolved?_eq_none_iff.1 (by decide), _, _, hlexes, hderives, rfl⟩
  have hreferences : references (sanitize "$2-$1".toList) = [] ++ 2 :: [1] := by
    rw [hchars]
    decide
  have hmissing : ∀ v, ([] : List (Option Value))[2 - 1]? ≠ some (some v) := by simp
  have hnone : ∀ j ∈ ([] : List Nat), IsNumeric [] j := by simp
  obtain ⟨-, -, -, -, hfirst⟩ := execute_compile h []
  exact ⟨_, h, (hfirst [] 2 [1] hreferences hnone).1 hmissing⟩

end CellGraph.Formula
