import CellGraph.Proofs.Formula.Grammar

/-!
# The stack of operators reads the grammar

Tokens are compiled over a stack of operators exactly if they are an expression, and the code is that of its tree
(`compileTokens_eq_ok_iff`).

* Every phrase is read (`Derives.isRead`).  What is still waiting after it binds so tightly that whatever may follow
  the phrase carries it out.
* Every stack comes from a part of an expression (`Context`).  When an operator or a parenthesis carries out what waits,
  one step is one rule of the grammar (`Context.reduces`).
-/

namespace CellGraph.Formula

/-! ### How tightly things bind -/

/-- How tightly a phrase binds. -/
def Level.rank : Level → Nat
  | .expr => 1
  | .term => 2
  | .power => 3
  | .unary => 4
  | .primary => 5

/-- How tightly something that waits binds. -/
def Pending.rank : Pending → Nat
  | .paren => 0
  | .operator o => o.precedence
  | .sign _ => 4

/-- Whether something that waits is carried out before an operator that comes next. -/
def Pending.Yields (o : Operator) (p : Pending) : Prop := o.precedence < p.rank ∨ (o.precedence = p.rank ∧ o ≠ .pow)

/-- Whether a phrase may start on top of what waits. -/
def Fits (level : Level) (ps : List Pending) : Prop :=
  ∀ p ∈ ps.head?, p.rank < level.rank ∨ (p.rank = level.rank ∧ 3 ≤ level.rank)

/-- The code with everything carried out that waits. -/
def emitAll (ps : List Pending) (code : List Instr) : List Instr := ps.foldl Pending.emit code

private theorem emitAll_append (ps qs : List Pending) (code : List Instr) :
    emitAll (ps ++ qs) code = emitAll qs (emitAll ps code) := List.foldl_append

theorem precedence_pos (o : Operator) : 0 < o.precedence := by
  cases o <;> decide

theorem precedence_le (o : Operator) : o.precedence ≤ 3 := by
  cases o <;> decide

theorem Pending.rank_le (p : Pending) : p.rank ≤ 4 := by
  cases p with
  | paren => exact Nat.zero_le 4
  | sign negative => exact Nat.le_refl 4
  | operator o => exact Nat.le_trans (precedence_le o) (by decide)

private theorem bindsBefore_iff {p o : Operator} : p.bindsBefore o = true ↔ (Pending.operator p).Yields o := by
  cases p <;> cases o <;> simp [Operator.bindsBefore, Operator.precedence, Operator.isRightAssoc, Pending.Yields,
    Pending.rank]

/-! ### Carrying out what waits -/

private theorem reduce_of_yields {o : Operator} {p : Pending} (hp : p.Yields o) (ps : List Pending)
    (code : List Instr) : Yard.reduce o (p :: ps) code = Yard.reduce o ps (p.emit code) := by
  cases p with
  | paren =>
    have hpos := precedence_pos o
    rcases hp with hlt | ⟨heq, -⟩
    · exact absurd hlt (Nat.not_lt_zero _)
    · exact absurd heq (Nat.ne_of_gt hpos)
  | sign negative => rw [Yard.reduce]
  | operator q => rw [Yard.reduce, if_pos (bindsBefore_iff.2 hp)]

private theorem reduce_of_not_yields {o : Operator} {ps : List Pending} (h : ∀ p ∈ ps.head?, ¬ p.Yields o)
    (code : List Instr) : Yard.reduce o ps code = (ps, code) := by
  rcases ps with _ | ⟨p, ps⟩
  · rfl
  · have hp : ¬ p.Yields o := h p rfl
    cases p with
    | paren => rfl
    | sign negative =>
      have hrank : o.precedence < 4 := by cases o <;> decide
      exact absurd (Or.inl hrank) hp
    | operator q => rw [Yard.reduce, if_neg (fun hq => hp (bindsBefore_iff.1 hq))]

private theorem reduce_append {o : Operator} {extra ps : List Pending} (hextra : ∀ p ∈ extra, p.Yields o)
    (hps : ∀ p ∈ ps.head?, ¬ p.Yields o) (code : List Instr) :
    Yard.reduce o (extra ++ ps) code = (ps, emitAll extra code) := by
  induction extra generalizing code with
  | nil => exact reduce_of_not_yields hps code
  | cons p extra ih =>
    rw [List.cons_append, reduce_of_yields (hextra p (List.mem_cons_self ..))]
    exact ih (fun q hq => hextra q (List.mem_cons_of_mem _ hq)) _

private theorem close_cons {p : Pending} (hp : 0 < p.rank) (ps : List Pending) (code : List Instr) :
    Yard.close (p :: ps) code = Yard.close ps (p.emit code) := by
  cases p with
  | paren => exact absurd hp (Nat.lt_irrefl 0)
  | _ => rfl

private theorem close_append {extra : List Pending} (hextra : ∀ p ∈ extra, 0 < p.rank) (ps : List Pending)
    (code : List Instr) : Yard.close (extra ++ .paren :: ps) code = some (ps, emitAll extra code) := by
  induction extra generalizing code with
  | nil => rfl
  | cons p extra ih =>
    rw [List.cons_append, close_cons (hextra p (List.mem_cons_self ..))]
    exact ih (fun q hq => hextra q (List.mem_cons_of_mem _ hq)) _

private theorem drain_cons {p : Pending} (hp : 0 < p.rank) (ps : List Pending) (code : List Instr) :
    Yard.drain (p :: ps) code = Yard.drain ps (p.emit code) := by
  cases p with
  | paren => exact absurd hp (Nat.lt_irrefl 0)
  | _ => rfl

private theorem drain_eq {extra : List Pending} (hextra : ∀ p ∈ extra, 0 < p.rank) (code : List Instr) :
    Yard.drain extra code = some (emitAll extra code) := by
  induction extra generalizing code with
  | nil => rfl
  | cons p extra ih =>
    rw [drain_cons (hextra p (List.mem_cons_self ..))]
    exact ih (fun q hq => hextra q (List.mem_cons_of_mem _ hq)) _

/-- A closing parenthesis carries out what waits inside the last open one. -/
private theorem push_closeParen_eq_ok {ps : List Pending} {code : List Instr} {y : Yard} :
    Yard.push ⟨code, ps, true⟩ .closeParen = .ok y ↔
      ∃ ps' code', Yard.close ps code = some (ps', code') ∧ y = ⟨code', ps', true⟩ := by
  unfold Yard.push
  rw [if_pos rfl]
  dsimp only
  rcases Yard.close ps code with _ | ⟨ps', code'⟩
  · simp
  · constructor
    · intro h
      exact ⟨ps', code', rfl, (Except.ok.inj h).symm⟩
    · rintro ⟨ps, code, heq, rfl⟩
      obtain ⟨rfl, rfl⟩ := Prod.mk.inj (Option.some.inj heq)
      rfl

/-- The end carries out all that waits. -/
private theorem finish_eq_ok {ps : List Pending} {code out : List Instr} :
    Yard.finish ⟨code, ps, true⟩ = .ok out ↔ ∃ code', Yard.drain ps code = some code' ∧ out = code'.reverse := by
  unfold Yard.finish
  rw [if_pos rfl]
  dsimp only
  rcases Yard.drain ps code with _ | code'
  · simp
  · simp [eq_comm]

private theorem compileTokens_eq_ok {ts : List Token} {code : List Instr} :
    compileTokens ts = .ok code ↔ ts ≠ [] ∧ ∃ y, Yard.empty.pushAll ts = .ok y ∧ y.finish = .ok code := by
  rcases ts with _ | ⟨t, ts⟩
  · simp [compileTokens]
  · unfold compileTokens
    dsimp only
    rcases Yard.empty.pushAll (t :: ts) with e | y
    · simp
    · simp

/-- An operator carries out nothing but what a closing parenthesis would. -/
private theorem close_reduce (o : Operator) (ps : List Pending) (code : List Instr) :
    Yard.close (Yard.reduce o ps code).1 (Yard.reduce o ps code).2 = Yard.close ps code := by
  fun_induction Yard.reduce o ps code with
  | case1 code negative ps ih => exact ih
  | case2 code p ps hbinds ih => exact ih
  | case3 code p ps hbinds => rfl
  | case4 ps code => rfl

/-- An operator carries out nothing but what the end would. -/
private theorem drain_reduce (o : Operator) (ps : List Pending) (code : List Instr) :
    Yard.drain (Yard.reduce o ps code).1 (Yard.reduce o ps code).2 = Yard.drain ps code := by
  fun_induction Yard.reduce o ps code with
  | case1 code negative ps ih => exact ih
  | case2 code p ps hbinds ih => exact ih
  | case3 code p ps hbinds => rfl
  | case4 ps code => rfl

/-! ### Phrases are read -/

private theorem pushAll_append {y z : Yard} {ts : List Token} (h : y.pushAll ts = .ok z) (rest : List Token) :
    y.pushAll (ts ++ rest) = z.pushAll rest := by
  induction ts generalizing y with
  | nil => exact congrArg (Yard.pushAll · rest) (Except.ok.inj h)
  | cons t ts ih =>
    rw [Yard.pushAll] at h
    rw [List.cons_append, Yard.pushAll]
    revert h
    rcases y.push t with e | y'
    · exact nofun
    · exact ih

private theorem pushAll_snoc {y z : Yard} {ts : List Token} (h : y.pushAll ts = .ok z) (t : Token) :
    y.pushAll (ts ++ [t]) = z.push t := by
  rw [pushAll_append h, Yard.pushAll]
  rcases z.push t with e | z'
  · rfl
  · rfl

private theorem operator_eq {o : Operator} {y : Yard} (hsign : o = .pow → ∀ p ∈ y.pending.head?, p.rank < 4) :
    y.operator o =
      .ok ⟨(Yard.reduce o y.pending y.code).2, .operator o :: (Yard.reduce o y.pending y.code).1, false⟩ := by
  unfold Yard.operator
  split
  · rename_i negative ps htop
    rw [htop] at hsign
    exact absurd (hsign rfl _ rfl) (Nat.lt_irrefl 4)
  · rfl

/-- An operator after an operand carries out what waits inside the operand. -/
private theorem push_operator {o : Operator} {extra ps : List Pending} (hextra : ∀ p ∈ extra, p.Yields o)
    (hps : ∀ p ∈ ps.head?, ¬ p.Yields o) (hsign : o = .pow → ∀ p ∈ (extra ++ ps).head?, p.rank < 4)
    (code : List Instr) :
    Yard.push ⟨code, extra ++ ps, true⟩ (.operator o) = .ok ⟨emitAll extra code, .operator o :: ps, false⟩ := by
  show Yard.operator ⟨code, extra ++ ps, true⟩ o = _
  rw [operator_eq hsign]
  show Except.ok (ε := BuildFailure) (Yard.mk (Yard.reduce o (extra ++ ps) code).2
    (.operator o :: (Yard.reduce o (extra ++ ps) code).1) false) = _
  rw [reduce_append hextra hps]

/-- A phrase is read on top of what waits.  Only what binds as tightly as the phrase still waits inside it. -/
def IsRead (level : Level) (ts : List Token) (t : ParseTree) (code : List Instr) (ps : List Pending) : Prop :=
  ∃ code' extra, Yard.pushAll ⟨code, ps, false⟩ ts = .ok ⟨code', extra ++ ps, true⟩ ∧
    (∀ p ∈ extra, level.rank ≤ p.rank) ∧ emitAll extra code' = t.postorder.reverse ++ code

namespace IsRead

variable {level left right : Level} {ls rs ts : List Token} {l r t : ParseTree} {code : List Instr} {ps : List Pending}

private theorem mono (h : IsRead level ts t code ps) (hle : left.rank ≤ level.rank) : IsRead left ts t code ps := by
  obtain ⟨code', extra, hread, hextra, hemit⟩ := h
  exact ⟨code', extra, hread, fun p hp => Nat.le_trans hle (hextra p hp), hemit⟩

private theorem sign {negative : Bool} (h : IsRead level ts t code (.sign negative :: ps)) (hle : level.rank ≤ 4) :
    IsRead level (.operator (.ofSign negative) :: ts) (.sign negative t) code ps := by
  obtain ⟨code', extra, hread, hextra, hemit⟩ := h
  refine ⟨code', extra ++ [.sign negative], ?_, ?_, ?_⟩
  · rw [List.append_assoc, List.singleton_append, ← hread]
    cases negative <;> rfl
  · intro p hp
    rcases List.mem_append.1 hp with hp | hp
    · exact hextra p hp
    · exact List.mem_singleton.1 hp ▸ hle
  · rw [emitAll_append, hemit]
    cases negative <;> simp [emitAll, Pending.emit, ParseTree.postorder]

private theorem binary {o : Operator} (hl : IsRead left ls l code ps)
    (hr : ∀ code, IsRead right rs r code (.operator o :: ps))
    (hpush : ∀ extra, (∀ p ∈ extra, left.rank ≤ p.rank) → ∀ code,
      Yard.push ⟨code, extra ++ ps, true⟩ (.operator o) = .ok ⟨emitAll extra code, .operator o :: ps, false⟩)
    (ho : level.rank ≤ o.precedence) (hright : level.rank ≤ right.rank) :
    IsRead level (ls ++ .operator o :: rs) (.binary o l r) code ps := by
  obtain ⟨code', extra, hread, hextra, hemit⟩ := hl
  obtain ⟨code'', extra', hread', hextra', hemit'⟩ := hr (emitAll extra code')
  refine ⟨code'', extra' ++ [.operator o], ?_, ?_, ?_⟩
  · rw [pushAll_append hread, Yard.pushAll, hpush extra hextra, List.append_assoc, List.singleton_append]
    exact hread'
  · intro p hp
    rcases List.mem_append.1 hp with hp | hp
    · exact Nat.le_trans hright (hextra' p hp)
    · exact List.mem_singleton.1 hp ▸ ho
  · rw [emitAll_append, hemit', hemit]
    simp [emitAll, Pending.emit, ParseTree.postorder]

private theorem paren (h : IsRead level ts t code (.paren :: ps)) (hpos : 0 < level.rank) :
    IsRead .primary (.openParen :: (ts ++ [.closeParen])) t code ps := by
  obtain ⟨code', extra, hread, hextra, hemit⟩ := h
  refine ⟨emitAll extra code', [], ?_, nofun, hemit⟩
  show Yard.pushAll ⟨code, .paren :: ps, false⟩ (ts ++ [.closeParen]) = _
  rw [pushAll_snoc hread, push_closeParen_eq_ok]
  exact ⟨ps, _, close_append (fun p hp => Nat.lt_of_lt_of_le hpos (hextra p hp)) ps code', rfl⟩

end IsRead

theorem Fits.mono {level level' : Level} {ps : List Pending} (h : Fits level ps) (hlt : level.rank < level'.rank) :
    Fits level' ps := by
  intro p hp
  left
  rcases h p hp with hp | ⟨hp, -⟩ <;> omega

/-- What waits below a sum or a product waits for longer than its operators. -/
private theorem Fits.not_yields {level : Level} {ps : List Pending} (h : Fits level ps) {o : Operator}
    (ho : level.rank = o.precedence) : ∀ p ∈ ps.head?, ¬ p.Yields o := by
  intro p hp hyields
  have hpow : 3 ≤ o.precedence → o = .pow := by cases o <;> simp [Operator.precedence]
  rcases h p hp with hp | ⟨hp, hle⟩
  · rcases hyields with hlt | ⟨heq, -⟩ <;> omega
  · rcases hyields with hlt | ⟨-, hne⟩
    · omega
    · exact hne (hpow (ho ▸ hle))

/-- One more step of a sum or a product. -/
private theorem IsRead.chain {left right : Level} {o : Operator} {ls rs : List Token} {l r : ParseTree}
    {code : List Instr} {ps : List Pending} (hl : IsRead left ls l code ps) (hprecedence : o.precedence = left.rank)
    (hlt : left.rank < 3) (hfits : Fits left ps) (hr : ∀ code, IsRead right rs r code (.operator o :: ps))
    (hright : left.rank ≤ right.rank) :
    IsRead left (ls ++ .operator o :: rs) (.binary o l r) code ps := by
  have hne : o ≠ .pow := by
    rintro rfl
    exact absurd hlt (Nat.not_lt_of_le (Nat.le_of_eq hprecedence))
  refine hl.binary hr ?_ (Nat.le_of_eq hprecedence.symm) hright
  intro extra hextra
  refine push_operator ?_ (hfits.not_yields hprecedence.symm) fun he => absurd he hne
  intro p hp
  rcases Nat.lt_or_eq_of_le (hextra p hp) with hlt | heq
  · exact Or.inl (hprecedence ▸ hlt)
  · exact Or.inr ⟨hprecedence.trans heq, hne⟩

/-- Every phrase is read on top of whatever it fits. -/
theorem Derives.isRead {level : Level} {ts : List Token} {t : ParseTree} (h : Derives level ts t) (code : List Instr)
    (ps : List Pending) (hfits : Fits level ps) : IsRead level ts t code ps := by
  induction h generalizing code ps with
  | number x => exact ⟨_, [], rfl, nofun, rfl⟩
  | argument i => exact ⟨_, [], rfl, nofun, rfl⟩
  | paren _ ih =>
    refine IsRead.paren (ih code (.paren :: ps) ?_) (by decide)
    rintro p ⟨⟩
    exact Or.inl (by decide)
  | @sign negative ts t _ ih =>
    refine (ih code (.sign negative :: ps) ?_).sign (by decide)
    rintro p ⟨⟩
    exact Or.inr ⟨rfl, by decide⟩
  | pow _ _ ihl ihr =>
    have hunsigned : ∀ p ∈ ps.head?, p.rank < 4 := by
      intro p hp
      rcases hfits p hp with hp | ⟨hp, -⟩ <;> simp only [Level.rank] at hp <;> omega
    refine (ihl code ps (hfits.mono (by decide))).binary (fun code => ihr code (.operator .pow :: ps) ?_) ?_ (by decide)
      (by decide)
    · rintro p ⟨⟩
      exact Or.inr (by decide)
    · intro extra hextra
      -- nothing waits inside a primary phrase
      have hnil : extra = [] := by
        rw [List.eq_nil_iff_forall_not_mem]
        intro p hp
        have := p.rank_le
        have := hextra p hp
        simp only [Level.rank] at this
        omega
      subst hnil
      exact push_operator nofun (hfits.not_yields rfl) fun _ => hunsigned
  | @product o _ _ _ _ ho _ _ ihl ihr =>
    have hprecedence : o.precedence = 2 := by
      cases o <;> simp at ho <;> rfl
    refine (ihl code ps hfits).chain hprecedence (by decide) hfits (fun code => ihr code _ ?_) (by decide)
    rintro p ⟨⟩
    exact Or.inl (Nat.lt_of_le_of_lt (Nat.le_of_eq hprecedence) (by decide))
  | @sum o _ _ _ _ ho _ _ ihl ihr =>
    have hprecedence : o.precedence = 1 := by
      cases o <;> simp at ho <;> rfl
    refine (ihl code ps hfits).chain hprecedence (by decide) hfits (fun code => ihr code _ ?_) (by decide)
    rintro p ⟨⟩
    exact Or.inl (Nat.lt_of_le_of_lt (Nat.le_of_eq hprecedence) (by decide))
  | term _ ih => exact (ih code ps (hfits.mono (by decide))).mono (by decide)
  | power _ ih => exact (ih code ps (hfits.mono (by decide))).mono (by decide)
  | unary _ ih => exact (ih code ps (hfits.mono (by decide))).mono (by decide)
  | primary _ ih => exact (ih code ps (hfits.mono (by decide))).mono (by decide)

/-! ### Stacks come from expressions -/

/-- What is read of an expression before a phrase of some level: the tokens, what waits and the code. -/
inductive Context : Level → List Token → List Pending → List Instr → Prop
  | start : Context .expr [] [] []
  | paren {ts : List Token} {ps : List Pending} {code : List Instr} : Context .primary ts ps code →
      Context .expr (ts ++ [.openParen]) (.paren :: ps) code
  | term {ts : List Token} {ps : List Pending} {code : List Instr} : Context .expr ts ps code →
      Context .term ts ps code
  | sum {o : Operator} {ts ls : List Token} {ps : List Pending} {code : List Instr} {l : ParseTree} :
      o ∈ [Operator.add, .sub] → Context .expr ts ps code → Derives .expr ls l →
      Context .term (ts ++ ls ++ [.operator o]) (.operator o :: ps) (l.postorder.reverse ++ code)
  | power {ts : List Token} {ps : List Pending} {code : List Instr} : Context .term ts ps code →
      Context .power ts ps code
  | product {o : Operator} {ts ls : List Token} {ps : List Pending} {code : List Instr} {l : ParseTree} :
      o ∈ [Operator.mul, .div, .rem] → Context .term ts ps code → Derives .term ls l →
      Context .power (ts ++ ls ++ [.operator o]) (.operator o :: ps) (l.postorder.reverse ++ code)
  | pow {ts ls : List Token} {ps : List Pending} {code : List Instr} {l : ParseTree} : Context .power ts ps code →
      Derives .primary ls l →
      Context .power (ts ++ ls ++ [.operator .pow]) (.operator .pow :: ps) (l.postorder.reverse ++ code)
  | unary {ts : List Token} {ps : List Pending} {code : List Instr} : Context .power ts ps code →
      Context .unary ts ps code
  | sign (negative : Bool) {ts : List Token} {ps : List Pending} {code : List Instr} : Context .unary ts ps code →
      Context .unary (ts ++ [.operator (.ofSign negative)]) (.sign negative :: ps) code
  | primary {ts : List Token} {ps : List Pending} {code : List Instr} : Context .unary ts ps code →
      Context .primary ts ps code

namespace Context

variable {level : Level} {ts us : List Token} {ps : List Pending} {code : List Instr} {t : ParseTree}

theorem rank_of_sum {o : Operator} (ho : o ∈ [Operator.add, .sub]) : o.precedence = 1 := by
  cases o <;> simp at ho <;> rfl

theorem rank_of_product {o : Operator} (ho : o ∈ [Operator.mul, .div, .rem]) : o.precedence = 2 := by
  cases o <;> simp at ho <;> rfl

theorem fits (h : Context level ts ps code) : Fits level ps := by
  induction h with
  | start => exact nofun
  | paren _ _ =>
    rintro p ⟨⟩
    exact Or.inl (by decide)
  | sum ho _ _ _ =>
    rintro p ⟨⟩
    exact Or.inl (by rw [Pending.rank, rank_of_sum ho]; decide)
  | product ho _ _ _ =>
    rintro p ⟨⟩
    exact Or.inl (by rw [Pending.rank, rank_of_product ho]; decide)
  | pow _ _ _ =>
    rintro p ⟨⟩
    exact Or.inr (by decide)
  | sign negative _ _ =>
    rintro p ⟨⟩
    exact Or.inr ⟨rfl, by decide⟩
  | term _ ih => exact ih.mono (by decide)
  | power _ ih => exact ih.mono (by decide)
  | unary _ ih => exact ih.mono (by decide)
  | primary _ ih => exact ih.mono (by decide)

/-- If no sign waits on top, the operand that comes next can be the base of a power. -/
private theorem base (h : Context .primary ts ps code) (hsign : ∀ p ∈ ps.head?, p.rank < 4) :
    Context .power ts ps code := by
  cases h with
  | primary h =>
    cases h with
    | unary h => exact h
    | sign negative _ => exact absurd (hsign _ rfl) (Nat.lt_irrefl 4)

/-- An operator that comes after a phrase carries out what waits, until the phrase is one of the target level. -/
def Reduces (o : Operator) (target : Level) (ts us : List Token) (ps : List Pending) (code : List Instr)
    (t : ParseTree) : Prop :=
  ∃ ts' us' ps' code' t', Context target ts' ps' code' ∧ Derives target us' t' ∧ ts' ++ us' = ts ++ us ∧
    Yard.reduce o ps (t.postorder.reverse ++ code) = (ps', t'.postorder.reverse ++ code')

private theorem level_eq {level level' : Level} (h : level.rank = level'.rank) : level = level' := by
  cases level <;> cases level' <;> first | rfl | nomatch h

private theorem Reduces.pop {o o' : Operator} {target : Level} {ls : List Token} {l : ParseTree}
    (h : Reduces o target ts (ls ++ .operator o' :: us) ps code (.binary o' l t))
    (hyields : (Pending.operator o').Yields o) :
    Reduces o target (ts ++ ls ++ [.operator o']) us (.operator o' :: ps) (l.postorder.reverse ++ code) t := by
  obtain ⟨ts', us', ps', code', t', hctx, hd, hts, hreduce⟩ := h
  refine ⟨ts', us', ps', code', t', hctx, hd, by simp [hts], ?_⟩
  rw [reduce_of_yields hyields, ← hreduce]
  simp [Pending.emit, ParseTree.postorder]

/-- If an operator carries out what binds tighter than the target, each step joins phrases by a rule of the grammar. -/
theorem reduces (h : Context level ts ps code) (target : Level) {o : Operator} (ho : o.precedence = target.rank)
    (hne : o ≠ .pow) (hle : target.rank ≤ level.rank) (hd : Derives level us t) :
    Reduces o target ts us ps code t := by
  -- at the target level nothing that waits is carried out any more
  have hstop : ∀ {level : Level} {ts us : List Token} {ps : List Pending} {code : List Instr} {t : ParseTree},
      Context level ts ps code → Derives level us t → target.rank ≤ level.rank →
      (target.rank < level.rank → Reduces o target ts us ps code t) → Reduces o target ts us ps code t := by
    intro level ts us ps code t h hd hle hgo
    rcases Nat.lt_or_eq_of_le hle with hlt | heq
    · exact hgo hlt
    · obtain rfl := level_eq heq
      exact ⟨ts, us, ps, _, t, h, hd, rfl, reduce_of_not_yields (h.fits.not_yields ho.symm) _⟩
  have hyields : ∀ p : Pending, target.rank ≤ p.rank → p.Yields o := by
    intro p hp
    rcases Nat.lt_or_eq_of_le hp with hlt | heq
    · exact Or.inl (ho ▸ hlt)
    · exact Or.inr ⟨ho.trans heq, hne⟩
  have hpos := precedence_pos o
  induction h generalizing us t with
  | start => exact hstop .start hd hle fun hlt => absurd (ho ▸ hlt) (Nat.not_lt_of_le hpos)
  | paren h _ => exact hstop (.paren h) hd hle fun hlt => absurd (ho ▸ hlt) (Nat.not_lt_of_le hpos)
  | term h ih => exact hstop (.term h) hd hle fun hlt => ih (Nat.le_of_lt_succ hlt) (.term hd)
  | @sum o' _ _ _ _ _ ho' h hl ih =>
    have hrank := rank_of_sum ho'
    refine hstop (.sum ho' h hl) hd hle fun hlt => ?_
    have hinner := Nat.le_of_lt_succ hlt
    exact (ih hinner (.sum ho' hl hd)).pop (hyields _ (Nat.le_trans hinner (Nat.le_of_eq hrank.symm)))
  | power h ih => exact hstop (.power h) hd hle fun hlt => ih (Nat.le_of_lt_succ hlt) (.power hd)
  | @product o' _ _ _ _ _ ho' h hl ih =>
    have hrank := rank_of_product ho'
    refine hstop (.product ho' h hl) hd hle fun hlt => ?_
    have hinner := Nat.le_of_lt_succ hlt
    exact (ih hinner (.product ho' hl hd)).pop (hyields _ (Nat.le_trans hinner (Nat.le_of_eq hrank.symm)))
  | pow h hl ih => exact (ih hle (.pow hl hd)).pop (hyields _ hle)
  | unary h ih => exact hstop (.unary h) hd hle fun hlt => ih (Nat.le_of_lt_succ hlt) (.unary hd)
  | sign negative h ih =>
    obtain ⟨ts', us', ps', code', t', hctx, hd', hts, hreduce⟩ := ih hle (.sign negative hd)
    refine ⟨ts', us', ps', code', t', hctx, hd', by simp [hts], ?_⟩
    rw [reduce_of_yields (hyields (.sign negative) hle), ← hreduce]
    cases negative <;> simp [Pending.emit, ParseTree.postorder]
  | primary h ih => exact hstop (.primary h) hd hle fun hlt => ih (Nat.le_of_lt_succ hlt) (.primary hd)

end Context

/-- What a stack stands for after some tokens: a part of an expression before an operand, and that operand if it is
complete. -/
inductive Reads : List Token → Yard → Prop
  | before {ts : List Token} {ps : List Pending} {code : List Instr} : Context .primary ts ps code →
      Reads ts ⟨code, ps, false⟩
  | after {ts us : List Token} {ps : List Pending} {code : List Instr} {t : ParseTree} : Context .primary ts ps code →
      Derives .primary us t → Reads (ts ++ us) ⟨t.postorder.reverse ++ code, ps, true⟩

namespace Reads

variable {ts : List Token} {y z : Yard}

/-- Before the first token nothing is read. -/
theorem start : Reads [] .empty := .before (.primary (.unary (.power (.term .start))))

/-- The whole expression inside the last open parenthesis, or inside none. -/
private theorem exists_expr {us : List Token} {ps : List Pending} {code : List Instr} {t : ParseTree}
    (h : Context .primary ts ps code) (hd : Derives .primary us t) :
    Context.Reduces .add .expr ts us ps code t := h.reduces .expr rfl (by decide) (by decide) hd

private theorem operator {o : Operator} {us : List Token} {ps : List Pending} {code : List Instr} {t : ParseTree}
    (h : Context .primary ts ps code) (hd : Derives .primary us t)
    (hread : Yard.operator ⟨t.postorder.reverse ++ code, ps, true⟩ o = .ok z) :
    Reads (ts ++ us ++ [.operator o]) z := by
  by_cases hpow : o = .pow
  · subst hpow
    have hsign : ∀ p ∈ ps.head?, p.rank < 4 := by
      rcases ps with _ | ⟨p, ps⟩
      · exact nofun
      · cases p with
        | paren =>
          rintro p ⟨⟩
          decide
        | sign negative => nomatch hread
        | operator q =>
          rintro p ⟨⟩
          exact Nat.lt_succ_of_le (precedence_le q)
    have hbase := h.base hsign
    rw [operator_eq fun _ => hsign] at hread
    obtain rfl := Except.ok.inj hread
    simp only [reduce_of_not_yields (hbase.fits.not_yields (show Level.power.rank = Operator.pow.precedence from rfl))]
    exact .before (.primary (.unary (hbase.pow hd)))
  · rw [operator_eq fun he => absurd he hpow] at hread
    obtain rfl := Except.ok.inj hread
    have ho : o ∈ [Operator.add, .sub] ∨ o ∈ [Operator.mul, .div, .rem] := by
      cases o <;> simp at hpow ⊢
    rcases ho with ho | ho
    · obtain ⟨ts', us', ps', code', t', hctx, hd', hts, hreduce⟩ :=
        h.reduces .expr (Context.rank_of_sum ho) hpow (by decide) hd
      simp only [hreduce, ← hts]
      exact .before (.primary (.unary (.power (.sum ho hctx hd'))))
    · obtain ⟨ts', us', ps', code', t', hctx, hd', hts, hreduce⟩ :=
        h.reduces .term (Context.rank_of_product ho) hpow (by decide) hd
      simp only [hreduce, ← hts]
      exact .before (.primary (.unary (.product ho hctx hd')))

private theorem closeParen {us : List Token} {ps : List Pending} {code : List Instr} {t : ParseTree}
    (h : Context .primary ts ps code) (hd : Derives .primary us t)
    (hread : Yard.push ⟨t.postorder.reverse ++ code, ps, true⟩ .closeParen = .ok z) :
    Reads (ts ++ us ++ [.closeParen]) z := by
  obtain ⟨psRead, codeRead, hclose, rfl⟩ := push_closeParen_eq_ok.1 hread
  obtain ⟨ts', us', ps', code', t', hctx, hd', hts, hreduce⟩ := exists_expr h hd
  rw [← close_reduce .add, hreduce] at hclose
  cases hctx with
  | start => simp [Yard.close] at hclose
  | @paren ts'' ps'' _ h' =>
    obtain ⟨rfl, rfl⟩ := Prod.mk.inj (Option.some.inj hclose)
    rw [← hts, List.append_assoc, List.append_assoc]
    exact .after h' (.paren hd')

/-- A token goes on with the part of an expression that is read. -/
theorem push (h : Reads ts y) {t : Token} (hread : y.push t = .ok z) : Reads (ts ++ [t]) z := by
  cases h with
  | before h =>
    cases t with
    | number x =>
      obtain rfl := Except.ok.inj hread
      exact .after h (.number x)
    | argument i =>
      obtain rfl := Except.ok.inj hread
      exact .after h (.argument i)
    | openParen =>
      obtain rfl := Except.ok.inj hread
      exact .before (.primary (.unary (.power (.term (.paren h)))))
    | closeParen => nomatch hread
    | operator o =>
      cases h with
      | primary h =>
        cases o with
        | add =>
          obtain rfl := Except.ok.inj hread
          exact .before (.primary (.sign false h))
        | sub =>
          obtain rfl := Except.ok.inj hread
          exact .before (.primary (.sign true h))
        | _ => nomatch hread
  | after h hd =>
    cases t with
    | operator o => exact operator h hd hread
    | closeParen => exact closeParen h hd hread
    | _ => nomatch hread

theorem pushAll (h : Reads ts y) {us : List Token} (hread : y.pushAll us = .ok z) : Reads (ts ++ us) z := by
  induction us generalizing ts y with
  | nil =>
    rw [List.append_nil]
    exact Except.ok.inj hread ▸ h
  | cons t us ih =>
    rw [Yard.pushAll] at hread
    rcases hy : y.push t with e | y'
    · rw [hy] at hread
      nomatch hread
    · rw [hy] at hread
      rw [← List.singleton_append, ← List.append_assoc]
      exact ih (h.push hy) hread

theorem finish (h : Reads ts y) {code : List Instr} (hread : y.finish = .ok code) :
    ∃ t, Derives .expr ts t ∧ code = t.postorder := by
  cases h with
  | before h => simp [Yard.finish] at hread
  | @after ts us ps code' t h hd =>
    obtain ⟨codeRead, hdrain, rfl⟩ := finish_eq_ok.1 hread
    obtain ⟨ts', us', ps', code'', t', hctx, hd', hts, hreduce⟩ := exists_expr h hd
    rw [← drain_reduce .add, hreduce] at hdrain
    cases hctx with
    | start =>
      refine ⟨t', hts ▸ hd', ?_⟩
      rw [← Option.some.inj hdrain, List.append_nil, List.reverse_reverse]
    | paren h' => simp [Yard.drain] at hdrain

end Reads

/-- Tokens are compiled exactly if they are an expression, and then to the code of its tree. -/
theorem compileTokens_eq_ok_iff {ts : List Token} {code : List Instr} :
    compileTokens ts = .ok code ↔ ∃ t, Derives .expr ts t ∧ code = t.postorder := by
  rw [compileTokens_eq_ok]
  constructor
  · rintro ⟨-, y, hread, hfinish⟩
    exact (Reads.start.pushAll hread).finish hfinish
  · rintro ⟨t, hd, rfl⟩
    obtain ⟨code', extra, hread, hextra, hemit⟩ := hd.isRead [] [] nofun
    rw [List.append_nil] at hread hemit
    refine ⟨?_, _, hread, ?_⟩
    · rintro rfl
      simp [Yard.pushAll] at hread
    · exact finish_eq_ok.2 ⟨_, drain_eq hextra code', by rw [hemit, List.reverse_reverse]⟩

end CellGraph.Formula
