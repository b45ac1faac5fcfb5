import CellGraph.Proofs.Formula.References

/-!
# What waits while a formula is read

Tokens that are accepted so far leave code, a stack of what waits and perhaps a complete operand.  Both halves of this
state are read off the part of an expression that the stack comes from (`Context`).  The code runs on the empty stack
and leaves the left operand of each operator that waits, and then the complete operand (`Reads.leaves`).  Inside each
parenthesis that is open, signs wait on top of operators, and an operator binds tighter than those that it waits on
(`Context.segmented`).
-/

namespace CellGraph.Formula

/-! ### What the code leaves -/

theorem Instr.run_append (args : List (Option Value)) (code code' : List Instr) (stack : List Float) :
    Instr.run args (code ++ code') stack = (Instr.run args code stack).bind (Instr.run args code') := by
  induction code generalizing stack with
  | nil => rfl
  | cons i code ih =>
    rw [List.cons_append, Instr.run, Instr.run]
    rcases i.step args stack with e | stack
    · rfl
    · exact ih stack

/-- Code that leaves a number of doubles on the empty stack, unless it stops at one of its arguments. -/
def Instr.Leaves (args : List (Option Value)) (code : List Instr) (depth : Nat) : Prop :=
  (∃ stack, Instr.run args code [] = .ok stack ∧ stack.length = depth) ∨
    ∃ i ∈ Instr.arguments code, ∃ e, Formula.argument args i = .error e ∧ Instr.run args code [] = .error e

/-- A tree has a value unless one of the arguments that its code reads has none. -/
private theorem ParseTree.eval_cases (args : List (Option Value)) (t : ParseTree) :
    (∃ x, t.eval args = .ok x) ∨
      ∃ i ∈ Instr.arguments t.postorder, ∃ e, Formula.argument args i = .error e ∧ t.eval args = .error e := by
  rcases heval : t.eval args with e | x
  · right
    have hfault := faultOf_eval args t
    rw [heval] at hfault
    obtain ⟨i, hi, he⟩ := List.exists_of_findSome?_eq_some hfault.symm
    exact ⟨i, arguments_postorder t ▸ hi, e, faultOf_eq_some_iff.1 he, rfl⟩
  · exact Or.inl ⟨x, rfl⟩

namespace Instr.Leaves

variable {args : List (Option Value)} {code : List Instr} {depth : Nat}

/-- The code of one more operand leaves one more double. -/
theorem operand (h : Leaves args code depth) (t : ParseTree) : Leaves args (code ++ t.postorder) (depth + 1) := by
  have harguments : Instr.arguments (code ++ t.postorder) = Instr.arguments code ++ Instr.arguments t.postorder :=
    List.filterMap_append
  unfold Leaves
  rw [harguments, run_append]
  rcases h with ⟨stack, hrun, hlength⟩ | ⟨i, hi, e, he, hrun⟩
  · have hoperand := run_postorder args t [] stack
    rw [List.append_nil] at hoperand
    rw [hrun, Except.bind, hoperand]
    rcases t.eval_cases args with ⟨x, hx⟩ | ⟨i, hi, e, he, hstop⟩
    · exact Or.inl ⟨x :: stack, by rw [hx]; rfl, congrArg (· + 1) hlength⟩
    · exact Or.inr ⟨i, List.mem_append_right _ hi, e, he, by rw [hstop]; rfl⟩
  · exact Or.inr ⟨i, List.mem_append_left _ hi, e, he, by rw [hrun]; rfl⟩

/-- The code never takes more from the stack than is there. -/
theorem run_ne_unbalanced (h : Leaves args code depth) : Instr.run args code [] ≠ .error .unbalanced := by
  rcases h with ⟨stack, hrun, -⟩ | ⟨i, -, e, he, hrun⟩
  · rw [hrun]
    exact nofun
  · intro hunbalanced
    rw [hrun] at hunbalanced
    obtain rfl := Except.error.inj hunbalanced
    exact argument_ne_unbalanced args i he

/-- If all arguments that the code reads have numbers, the run comes to its end. -/
theorem exists_run (h : Leaves args code depth) (hnumeric : ∀ i ∈ Instr.arguments code, IsNumeric args (i + 1)) :
    ∃ stack, Instr.run args code [] = .ok stack ∧ stack.length = depth := by
  rcases h with h | ⟨i, hi, e, he, -⟩
  · exact h
  · obtain ⟨x, hx⟩ := argument_of_isNumeric (hnumeric i hi)
    rw [Nat.add_sub_cancel, he] at hx
    cases hx

end Instr.Leaves

/-- Whether something that waits is an operator, whose left operand is complete. -/
def Pending.isOperator : Pending → Bool
  | .operator _ => true
  | _ => false

/-- How many operands are complete: one for each operator that waits, and the one that the text ends with. -/
def Yard.depth (y : Yard) : Nat := y.pending.countP Pending.isOperator + if y.hasOperand then 1 else 0

theorem Context.leaves {level : Level} {ts : List Token} {ps : List Pending} {code : List Instr}
    (h : Context level ts ps code) (args : List (Option Value)) :
    Instr.Leaves args code.reverse (ps.countP Pending.isOperator) := by
  have hoperator : ∀ {ps : List Pending} {code : List Instr} (o : Operator) (l : ParseTree),
      Instr.Leaves args code.reverse (ps.countP Pending.isOperator) →
      Instr.Leaves args (l.postorder.reverse ++ code).reverse ((Pending.operator o :: ps).countP Pending.isOperator) := by
    intro ps code o l h
    rw [List.reverse_append, List.reverse_reverse, List.countP_cons_of_pos rfl]
    exact h.operand l
  induction h with
  | start => exact Or.inl ⟨[], rfl, rfl⟩
  | paren _ ih => rwa [List.countP_cons_of_neg Bool.false_ne_true]
  | sum _ _ _ ih => exact hoperator _ _ ih
  | product _ _ _ ih => exact hoperator _ _ ih
  | pow _ _ ih => exact hoperator _ _ ih
  | sign negative _ ih => rwa [List.countP_cons_of_neg Bool.false_ne_true]
  | term _ ih => exact ih
  | power _ ih => exact ih
  | unary _ ih => exact ih
  | primary _ ih => exact ih

/-- The code so far leaves the operands that are complete. -/
theorem Reads.leaves {ts : List Token} {y : Yard} (h : Reads ts y) (args : List (Option Value)) :
    Instr.Leaves args y.code.reverse y.depth := by
  cases h with
  | before h => exact h.leaves args
  | @after _ _ _ code t h _ =>
    show Instr.Leaves args (t.postorder.reverse ++ code).reverse _
    rw [List.reverse_append, List.reverse_reverse]
    exact (h.leaves args).operand t

/-! ### What waits on what -/

/-- Whether an operator can wait on top of another one inside the same parenthesis. -/
def Operator.WaitsOn (above below : Operator) : Prop :=
  below.precedence < above.precedence ∨ (above = .pow ∧ below = .pow)

theorem Operator.WaitsOn.trans {o p q : Operator} (hop : o.WaitsOn p) (hpq : p.WaitsOn q) : o.WaitsOn q := by
  rcases hop with hop | ⟨rfl, rfl⟩
  · rcases hpq with hpq | ⟨rfl, rfl⟩
    · exact Or.inl (Nat.lt_trans hpq hop)
    · exact Or.inl hop
  · exact hpq

/-- What waits inside one parenthesis, from the bottom to the top: operators, each of them on all those below it, and
then signs. -/
def IsSegment (ps : List Pending) : Prop :=
  ∃ (os : List Operator) (signs : List Bool), ps = os.map .operator ++ signs.map .sign ∧
    os.Pairwise fun below above => above.WaitsOn below

theorem isSegment_nil : IsSegment [] := ⟨[], [], rfl, .nil⟩

/-- An operator that can wait on the last one can wait on all of them. -/
private theorem pairwise_waitsOn_concat {os : List Operator} {o : Operator}
    (hos : os.Pairwise fun below above => above.WaitsOn below) (hlast : ∀ p ∈ os.getLast?, o.WaitsOn p) :
    (os ++ [o]).Pairwise fun below above => above.WaitsOn below := by
  have hall : ∀ p ∈ os, o.WaitsOn p := by
    rcases os.eq_nil_or_concat with rfl | ⟨os, last, rfl⟩
    · exact fun p hp => absurd hp List.not_mem_nil
    · have ho := hlast last (by simp)
      rw [List.concat_eq_append, List.pairwise_append] at hos
      rw [List.concat_eq_append, List.forall_mem_append, List.forall_mem_singleton]
      exact ⟨fun p hp => ho.trans (hos.2.2 p hp last (List.mem_singleton_self _)), ho⟩
  rw [List.pairwise_append]
  refine ⟨hos, List.pairwise_singleton _ _, fun p hp above habove => ?_⟩
  exact List.mem_singleton.1 habove ▸ hall p hp

/-- Something goes on top of a segment if the phrases of its rank fit there. -/
theorem IsSegment.concat {ps : List Pending} (h : IsSegment ps) {p : Pending} (hp : 0 < p.rank)
    (hfits : ∀ q ∈ ps.getLast?, q.rank < p.rank ∨ (q.rank = p.rank ∧ 3 ≤ p.rank)) : IsSegment (ps ++ [p]) := by
  obtain ⟨os, signs, rfl, hos⟩ := h
  cases p with
  | paren => exact absurd hp (Nat.lt_irrefl 0)
  | sign negative => exact ⟨os, signs ++ [negative], by simp, hos⟩
  | operator o =>
    -- a sign binds tighter than every operator
    obtain rfl : signs = [] := by
      rcases signs.eq_nil_or_concat with rfl | ⟨signs, negative, rfl⟩
      · rfl
      · have hle := precedence_le o
        have hsign := hfits (.sign negative) (by simp)
        simp only [Pending.rank] at hsign
        omega
    refine ⟨os ++ [o], [], by simp, pairwise_waitsOn_concat hos fun q hq => ?_⟩
    have hrank := hfits (.operator q) (by simpa using hq)
    cases o <;> cases q <;> simp [Pending.rank, Operator.precedence, Operator.WaitsOn] at hrank ⊢

/-! ### Cut at the open parentheses -/

private theorem splitOn_paren (ps : List Pending) :
    (Pending.paren :: ps).splitOn .paren = [] :: ps.splitOn .paren := by
  rw [List.splitOn, List.splitOnP_cons_eq_if_modifyHead, if_pos (by simp)]
  rfl

/-- What is not a parenthesis belongs to the part on top. -/
private theorem exists_splitOn_cons {p : Pending} (hp : p ≠ .paren) (ps : List Pending) :
    ∃ top rest, ps.splitOn .paren = top :: rest ∧ (p :: ps).splitOn .paren = (p :: top) :: rest := by
  obtain ⟨top, rest, hsplit⟩ := List.exists_cons_of_ne_nil (List.splitOn_ne_nil Pending.paren ps)
  refine ⟨top, rest, hsplit, ?_⟩
  rw [List.splitOn] at hsplit ⊢
  rw [List.splitOnP_cons_eq_if_modifyHead, if_neg (by simpa using hp), hsplit, List.modifyHead_cons]

/-- The part on top starts with what waits last. -/
private theorem head?_of_splitOn {ps top : List Pending} {rest : List (List Pending)}
    (hsplit : ps.splitOn .paren = top :: rest) {q : Pending} (hq : q ∈ top.head?) : q ∈ ps.head? := by
  rcases ps with _ | ⟨p, ps⟩
  · obtain ⟨rfl, -⟩ := List.cons.inj hsplit
    exact absurd hq nofun
  · by_cases hp : p = .paren
    · subst hp
      obtain ⟨rfl, -⟩ := List.cons.inj ((splitOn_paren ps).symm.trans hsplit)
      exact absurd hq nofun
    · obtain ⟨top', rest', -, hcons⟩ := exists_splitOn_cons hp ps
      obtain ⟨rfl, -⟩ := List.cons.inj (hcons.symm.trans hsplit)
      exact hq

/-- Each part of what waits, cut at the open parentheses, is a segment. -/
def Segmented (ps : List Pending) : Prop := ∀ seg ∈ ps.splitOn .paren, IsSegment seg.reverse

namespace Segmented

variable {ps : List Pending}

theorem nil : Segmented [] := List.forall_mem_singleton.2 isSegment_nil

theorem paren (h : Segmented ps) : Segmented (.paren :: ps) := by
  unfold Segmented
  rw [splitOn_paren, List.forall_mem_cons]
  exact ⟨isSegment_nil, h⟩

/-- Something of the rank of a phrase waits on what the phrase fits. -/
theorem cons (h : Segmented ps) {level : Level} (hfits : Fits level ps) {p : Pending} (hp : p.rank = level.rank) :
    Segmented (p :: ps) := by
  have hpos : 0 < p.rank := by
    rw [hp]
    cases level <;> decide
  have hne : p ≠ .paren := by
    rintro rfl
    exact Nat.lt_irrefl 0 hpos
  obtain ⟨top, rest, hsplit, hcons⟩ := exists_splitOn_cons hne ps
  unfold Segmented at h ⊢
  rw [hsplit, List.forall_mem_cons] at h
  rw [hcons, List.forall_mem_cons, List.reverse_cons]
  refine ⟨h.1.concat hpos fun q hq => ?_, h.2⟩
  rw [List.getLast?_reverse] at hq
  rw [hp]
  exact hfits q (head?_of_splitOn hsplit hq)

end Segmented

/-- What waits comes from a part of an expression, in which each phrase fits what it stands on. -/
theorem Context.segmented {level : Level} {ts : List Token} {ps : List Pending} {code : List Instr}
    (h : Context level ts ps code) : Segmented ps := by
  induction h with
  | start => exact .nil
  | paren _ ih => exact ih.paren
  | sum ho h _ ih => exact ih.cons h.fits (rank_of_sum ho)
  | product ho h _ ih => exact ih.cons h.fits (rank_of_product ho)
  | pow h _ ih => exact ih.cons h.fits rfl
  | sign negative h ih => exact ih.cons h.fits rfl
  | term _ ih => exact ih
  | power _ ih => exact ih
  | unary _ ih => exact ih
  | primary _ ih => exact ih

theorem Reads.segmented {ts : List Token} {y : Yard} (h : Reads ts y) : Segmented y.pending := by
  cases h with
  | before h => exact h.segmented
  | after h _ => exact h.segmented

/-- After any tokens that are accepted, whatever comes next, the code so far never runs out of operands.  If the
arguments that it reads have numbers, it leaves one double for each operator that waits and one for an operand that is
complete.  What waits inside each open parenthesis is a segment. -/
theorem pushAll_exact {ts : List Token} {y : Yard} (h : Yard.empty.pushAll ts = .ok y) :
    (∀ args, Instr.run args y.code.reverse [] ≠ .error .unbalanced ∧
      ((∀ i ∈ Instr.arguments y.code, IsNumeric args (i + 1)) →
        ∃ stack, Instr.run args y.code.reverse [] = .ok stack ∧ stack.length = y.depth)) ∧
    ∀ seg ∈ y.pending.splitOn .paren, IsSegment seg.reverse := by
  have hreads : Reads ts y := Reads.start.pushAll h
  refine ⟨fun args => ⟨(hreads.leaves args).run_ne_unbalanced, fun hnumeric => ?_⟩, hreads.segmented⟩
  refine (hreads.leaves args).exists_run fun i hi => hnumeric i ?_
  rw [Instr.mem_arguments, List.mem_reverse] at hi
  exact Instr.mem_arguments.2 hi

/-- A sum that waits outside of a parenthesis, and two powers inside of it with a signed operand. -/
theorem pushAll_exact_of_powers :
    ∃ y, Yard.empty.pushAll [.argument 0, .operator .add, .openParen, .argument 1, .operator .pow, .argument 0,
        .operator .pow, .operator .sub, .argument 1] = .ok y ∧
      (∃ stack, Instr.run [some (.bool true), some .null] y.code.reverse [] = .ok stack ∧ stack.length = 4) ∧
      y.pending.splitOn .paren = [[.sign true, .operator .pow, .operator .pow], [.operator .add]] ∧
      IsSegment [.operator .pow, .operator .pow, .sign true] := by
  have h : Yard.empty.pushAll [.argument 0, .operator .add, .openParen, .argument 1, .operator .pow, .argument 0,
      .operator .pow, .operator .sub, .argument 1] =
      .ok ⟨[.argument 1, .argument 0, .argument 1, .argument 0],
        [.sign true, .operator .pow, .operator .pow, .paren, .operator .add], true⟩ := rfl
  have hsplit : [Pending.sign true, .operator .pow, .operator .pow, .paren, .operator .add].splitOn .paren =
      [[.sign true, .operator .pow, .operator .pow], [.operator .add]] := by decide
  have hnumeric : ∀ i ∈ Instr.arguments [.argument 1, .argument 0, .argument 1, .argument 0],
      IsNumeric [some (.bool true), some .null] (i + 1) := by
    have hone : IsNumeric [some (.bool true), some .null] 1 := ⟨.bool true, _, rfl, rfl⟩
    have htwo : IsNumeric [some (.bool true), some .null] 2 := ⟨.null, _, rfl, rfl⟩
    simp [Instr.arguments, hone, htwo]
  obtain ⟨hruns, hsegments⟩ := pushAll_exact h
  refine ⟨_, h, (hruns _).2 hnumeric, hsplit, ?_⟩
  exact hsegments [.sign true, .operator .pow, .operator .pow] (hsplit ▸ List.mem_cons_self ..)

end CellGraph.Formula
