import CellGraph.Proofs.Formula.Yard

/-!
# The grammar is unambiguous

An expression has one tree (`Derives.unique`).  Since every phrase is read, the tokens determine the code of the tree.
The code alone does not determine the tree, because a plus sign in front of an operand leaves nothing in it.  With a
minus sign in place of every plus sign it does, which settles the shape of the tree, and the tokens from left to right
tell which of the signs were plus signs.
-/

namespace CellGraph.Formula

/-! ### Minus signs for plus signs -/

/-- An operator with minus in place of plus. -/
def Operator.unplus : Operator → Operator
  | .add => .sub
  | o => o

/-- A token with a minus sign in place of a plus sign. -/
def Token.unplus : Token → Token
  | .operator o => .operator o.unplus
  | t => t

/-- A tree with minus signs in place of plus signs. -/
def ParseTree.unplus : ParseTree → ParseTree
  | .number x => .number x
  | .argument i => .argument i
  | .sign _ t => .sign true t.unplus
  | .binary o l r => .binary o.unplus l.unplus r.unplus

private theorem ofSign_unplus (negative : Bool) : (Operator.ofSign negative).unplus = .ofSign true := by
  cases negative <;> rfl

theorem Derives.unplus {level : Level} {ts : List Token} {t : ParseTree} (h : Derives level ts t) :
    Derives level (ts.map Token.unplus) t.unplus := by
  induction h with
  | @sum o ls rs l r ho _ _ ihl ihr =>
    have ho' : o.unplus ∈ [Operator.add, .sub] := by cases o <;> simp [Operator.unplus] at ho ⊢
    rw [List.map_append]
    exact .sum ho' ihl ihr
  | @product o ls rs l r ho _ _ ihl ihr =>
    have ho' : o.unplus ∈ [Operator.mul, .div, .rem] := by cases o <;> simp [Operator.unplus] at ho ⊢
    rw [List.map_append]
    exact .product ho' ihl ihr
  | pow _ _ ihl ihr =>
    rw [List.map_append]
    exact .pow ihl ihr
  | sign negative _ ih =>
    rw [List.map_cons, Token.unplus, ofSign_unplus]
    exact .sign true ih
  | paren _ ih =>
    rw [List.map_cons, List.map_append]
    exact .paren ih
  | number x => exact .number x
  | argument i => exact .argument i
  | term _ ih => exact .term ih
  | power _ ih => exact .power ih
  | unary _ ih => exact .unary ih
  | primary _ ih => exact .primary ih

/-! ### Code without plus signs -/

/-- The trees that code puts together on a stack of trees. -/
def ParseTree.rebuild : List Instr → List ParseTree → List ParseTree
  | .push x :: code, ts => rebuild code (.number x :: ts)
  | .argument i :: code, ts => rebuild code (.argument i :: ts)
  | .negate :: code, t :: ts => rebuild code (.sign true t :: ts)
  | .binary o :: code, r :: l :: ts => rebuild code (.binary o l r :: ts)
  | _, ts => ts

private theorem rebuild_postorder (t : ParseTree) (code : List Instr) (ts : List ParseTree) :
    ParseTree.rebuild (t.unplus.postorder ++ code) ts = ParseTree.rebuild code (t.unplus :: ts) := by
  induction t generalizing code ts with
  | number x => rfl
  | argument i => rfl
  | sign negative t ih =>
    rw [ParseTree.unplus, ParseTree.postorder, List.append_assoc, ih]
    rfl
  | binary o l r ihl ihr =>
    rw [ParseTree.unplus, ParseTree.postorder, List.append_assoc, List.append_assoc, ihl, ihr]
    rfl

private theorem unplus_eq_of_postorder_eq {t t' : ParseTree} (h : t.unplus.postorder = t'.unplus.postorder) :
    t.unplus = t'.unplus := by
  have ht := rebuild_postorder t [] []
  rw [h, rebuild_postorder t' [] []] at ht
  exact (List.cons.inj ht).1.symm

/-! ### Tokens from left to right -/

/-- The tokens of a tree from left to right, without parentheses. -/
def ParseTree.tokens : ParseTree → List Token
  | .number x => [.number x]
  | .argument i => [.argument i]
  | .sign negative t => .operator (.ofSign negative) :: t.tokens
  | .binary o l r => l.tokens ++ .operator o :: r.tokens

/-- Whether a token is a parenthesis. -/
def Token.isParen : Token → Bool
  | .openParen | .closeParen => true
  | _ => false

/-- The tree of a phrase has its tokens, but for the parentheses. -/
theorem Derives.tokens_eq {level : Level} {ts : List Token} {t : ParseTree} (h : Derives level ts t) :
    t.tokens = ts.filter fun t => !t.isParen := by
  induction h with
  | sum _ _ _ ihl ihr | product _ _ _ ihl ihr | pow _ _ ihl ihr =>
    rw [ParseTree.tokens, ihl, ihr, List.filter_append]
    rfl
  | sign negative _ ih =>
    rw [ParseTree.tokens, ih]
    rfl
  | paren _ ih =>
    rw [ih, List.filter_cons_of_neg (by decide), List.filter_append]
    simp [Token.isParen]
  | number x => rfl
  | argument i => rfl
  | term _ ih | power _ ih | unary _ ih | primary _ ih => exact ih

private theorem length_tokens_unplus (t : ParseTree) : t.unplus.tokens.length = t.tokens.length := by
  induction t with
  | number x => rfl
  | argument i => rfl
  | sign negative t ih => simp [ParseTree.unplus, ParseTree.tokens, ih]
  | binary o l r ihl ihr => simp [ParseTree.unplus, ParseTree.tokens, ihl, ihr]

/-- The shape of a tree and its tokens determine it. -/
private theorem eq_of_unplus_eq {t t' : ParseTree} (h : t.unplus = t'.unplus) (htokens : t.tokens = t'.tokens) :
    t = t' := by
  induction t generalizing t' with
  | number x => cases t' <;> simp_all [ParseTree.unplus]
  | argument i => cases t' <;> simp_all [ParseTree.unplus]
  | sign negative t ih =>
    cases t' with
    | sign negative' t' =>
      obtain ⟨hsign, hrest⟩ := List.cons.inj htokens
      have hnegative : negative = negative' := by
        cases negative <;> cases negative' <;> first | rfl | nomatch hsign
      rw [hnegative, ih (ParseTree.sign.inj h).2 hrest]
    | _ => nomatch h
  | binary o l r ihl ihr =>
    cases t' with
    | binary o' l' r' =>
      obtain ⟨-, hl, hr⟩ := ParseTree.binary.inj h
      have hlen : l.tokens.length = l'.tokens.length := by
        rw [← length_tokens_unplus l, hl, length_tokens_unplus]
      obtain ⟨hltokens, hrest⟩ := List.append_inj htokens hlen
      obtain ⟨ho, hrtokens⟩ := List.cons.inj hrest
      rw [Token.operator.inj ho, ihl hl hltokens, ihr hr hrtokens]
    | _ => nomatch h

/-- An expression has one tree. -/
theorem Derives.unique {ts : List Token} {t t' : ParseTree} (h : Derives .expr ts t) (h' : Derives .expr ts t') :
    t = t' := by
  have hcode : compileTokens (ts.map Token.unplus) = .ok t.unplus.postorder :=
    compileTokens_eq_ok_iff.2 ⟨_, h.unplus, rfl⟩
  have hcode' : compileTokens (ts.map Token.unplus) = .ok t'.unplus.postorder :=
    compileTokens_eq_ok_iff.2 ⟨_, h'.unplus, rfl⟩
  have hpostorder := Except.ok.inj (hcode.symm.trans hcode')
  exact eq_of_unplus_eq (unplus_eq_of_postorder_eq hpostorder) (h.tokens_eq.trans h'.tokens_eq.symm)

end CellGraph.Formula
