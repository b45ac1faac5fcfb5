import CellGraph.Proofs.Graph.PassThrough

/-!
# Why a value is missing

A cell that has neither a value nor a fault has no fallback, and either its table is not asked for one of its keys
(`Cell.MissesKey`) or it is a constant that is not finite (`Cell.outcome_eq_none_iff`).  A result of a formula that is
not finite is a fault; a constant that is not finite is none.
-/

namespace CellGraph

/-! ### Doubles that are no numbers -/

theorem Binary64.isFinite_of_toInt? {x : Float} {n : Int} (h : toInt? x = some n) : x.isFinite = true := by
  rw [isFinite_iff]
  unfold toInt? at h
  split at h
  · rename_i s hs
    exact Or.inl ⟨s, hs⟩
  · rename_i s m e hm hs
    exact Or.inr ⟨s, m, e, hm, hs⟩
  · nomatch h
  · nomatch h

/-- Every finite double is a number, and no other is. -/
theorem Value.ofFloat?_eq_none_iff {x : Float} : ofFloat? x = none ↔ x.isFinite = false := by
  rw [← Bool.not_eq_true, ← Option.not_isSome_iff_eq_none, not_iff_not, Option.isSome_iff_exists]
  constructor
  · rintro ⟨v, hv⟩
    rcases ofFloat?_cases hv with ⟨n, -, hn, -, -⟩ | ⟨hfinite, -, -⟩
    · exact Binary64.isFinite_of_toInt? hn
    · exact hfinite
  · intro hfinite
    rw [← Option.isSome_iff_exists, ofFloat?, Option.isSome_or, Number.ofFloat?, dif_pos hfinite]
    exact Bool.or_true _

/-! ### Programs that end without a value -/

namespace Rule

variable {args : List (Option Value)} {arity : Nat}

/-- Whether the program of a rule ends without a value and without a fault. -/
def EndsEmpty (r : Rule) (arity : Nat) (args : List (Option Value)) : Prop :=
  ∃ program, r.compile arity = .ok program ∧ program.run args = .ok none

private theorem endsEmpty_number {x : Float} :
    (Rule.formula (.number x)).EndsEmpty arity args ↔ x.isFinite = false := by
  rw [← Value.ofFloat?_eq_none_iff, EndsEmpty, Rule.compile]
  rcases Value.ofFloat? x with _ | v
  · exact iff_of_true ⟨.missing, rfl, rfl⟩ rfl
  · refine iff_of_false ?_ (Option.some_ne_none v)
    rintro ⟨program, ⟨⟩, hrun⟩
    cases hrun

/-- Code ends with a value or with a fault. -/
private theorem not_endsEmpty_expression {text : String} :
    ¬ (Rule.formula (.expression text)).EndsEmpty arity args := by
  rintro ⟨program, hcompile, hrun⟩
  rw [Rule.compile] at hcompile
  split at hcompile
  · obtain rfl := Except.ok.inj hcompile
    rw [Program.run] at hrun
    split at hrun
    · cases hrun
    · split at hrun <;> cases hrun
  · cases hcompile

/-- A look-up ends without a value if there is no probe or no key matches it. -/
private theorem run_lookup_eq_none_iff {t : Table} : (Program.lookup t).run args = .ok none ↔
    ∀ v, args.head? = some (some v) → ∀ e ∈ t.entries, e.1.keyMatches v = false := by
  rcases args with _ | ⟨_ | v, args⟩
  · exact iff_of_true rfl nofun
  · exact iff_of_true rfl nofun
  · simp [Program.run, Table.get?]

private theorem endsEmpty_lookup {t : Table} : (Rule.lookup t).EndsEmpty arity args ↔
    t.entries ≠ [] ∧ ∀ v, args.head? = some (some v) → ∀ e ∈ t.entries, e.1.keyMatches v = false := by
  rw [EndsEmpty, Rule.compile, Table.isEmpty, ← run_lookup_eq_none_iff]
  rcases t with ⟨_ | ⟨e, es⟩⟩
  · refine iff_of_false ?_ fun h => h.1 rfl
    rintro ⟨program, hcompile, -⟩
    cases hcompile
  · constructor
    · rintro ⟨program, ⟨⟩, hrun⟩
      exact ⟨List.cons_ne_nil e es, hrun⟩
    · exact fun h => ⟨_, rfl, h.2⟩

end Rule

/-! ### Cells without a value -/

namespace Cell

variable {c : Cell} {args : List (Option Value)}

/-- A cell with a table that has entries is not asked for any of its keys: it has no first input, or that has no value,
or the value matches no key. -/
structure MissesKey (c : Cell) (args : List (Option Value)) : Prop where
  no_formula : c.formula? = none
  entries : c.table.entries ≠ []
  unmatched : ∀ v, args.head? = some (some v) → ∀ e ∈ c.table.entries, e.1.keyMatches v = false

private theorem endsEmpty_rule_iff : c.rule.EndsEmpty c.inputs.length args ↔
    c.MissesKey args ∨ ∃ x, c.formula? = some (.number x) ∧ x.isFinite = false := by
  have hformula : c.formula? = c.rule.formula? := rfl
  have htable : c.table = c.rule.table := rfl
  rcases hrule : c.rule with (x | text) | t <;> rw [hrule] at hformula htable
  · rw [Rule.endsEmpty_number]
    constructor
    · exact fun hx => Or.inr ⟨x, hformula, hx⟩
    · rintro (hmiss | ⟨y, hy, hfinite⟩)
      · nomatch hformula.symm.trans hmiss.no_formula
      · obtain ⟨⟩ := hformula.symm.trans hy
        exact hfinite
  · refine iff_of_false Rule.not_endsEmpty_expression ?_
    rintro (hmiss | ⟨y, hy, -⟩)
    · nomatch hformula.symm.trans hmiss.no_formula
    · nomatch hformula.symm.trans hy
  · rw [Rule.endsEmpty_lookup]
    constructor
    · exact fun h => Or.inl ⟨hformula, by rw [htable]; exact h.1, by rw [htable]; exact h.2⟩
    · rintro (hmiss | ⟨y, hy, -⟩)
      · have hentries := hmiss.entries
        have hunmatched := hmiss.unmatched
        rw [htable] at hentries hunmatched
        exact ⟨hentries, hunmatched⟩
      · nomatch hformula.symm.trans hy

/-- A cell has neither a value nor a fault exactly if it has no fallback and misses its key or is a constant that is not
finite. -/
theorem outcome_eq_none_iff : c.outcome args = ⟨none, none⟩ ↔
    c.fallback = none ∧ (c.MissesKey args ∨ ∃ x, c.formula? = some (.number x) ∧ x.isFinite = false) := by
  rw [← endsEmpty_rule_iff, Rule.EndsEmpty, outcome]
  rcases c.rule.compile c.inputs.length with e | program
  · simp
  · rcases hrun : program.run args with e | _ | v <;> simp [hrun]

/-- A result of a formula that is not finite is a fault. -/
theorem outcome_of_result {text : String} {code : List Formula.Instr} {x : Float}
    (hformula : c.formula? = some (.expression text)) (hcode : Formula.compile text c.inputs.length = .ok code)
    (hresult : Formula.execute code args = .ok x) (hx : x.isFinite = false) :
    c.outcome args = ⟨some (.eval .nonFinite), c.fallback⟩ := by
  have hcompile : c.rule.compile c.inputs.length = .ok (.code code) := by
    rw [Rule.formula?_eq_some_iff.1 hformula, Rule.compile, hcode]
  have hrun : (Program.code code).run args = .error .nonFinite := by
    simp only [Program.run, hresult, Value.ofFloat?_eq_none_iff.2 hx]
  simp only [outcome, hcompile, hrun]

/-- A constant that is not finite is no value and no fault. -/
theorem outcome_of_constant {x : Float} (hformula : c.formula? = some (.number x)) (hx : x.isFinite = false) :
    c.outcome args = ⟨none, c.fallback⟩ := by
  have hcompile : c.rule.compile c.inputs.length = .ok .missing := by
    rw [Rule.formula?_eq_some_iff.1 hformula, Rule.compile, Value.ofFloat?_eq_none_iff.2 hx]
  simp only [outcome, hcompile, Program.run, Option.map_none, Option.none_or]

end Cell

namespace Graph

variable {g : Graph} {id : NodeId}

/-- A cell of the ledger that has no value has a fault, unless it is a look-up whose first input is not there or has no
value or whose table has no key that matches it, or a constant that is not finite.  In these two cases a cell without a
fallback has indeed neither a value nor a fault.  A result of a formula that is not finite is always recorded as a
fault; a constant that is not finite never is, with a fallback or without. -/
theorem Reachable.missing_explained (hg : g.Reachable) (hid : id ∈ g.evaluate.1.order) :
    ∃ c o, g.cell? id = some c ∧ g.evaluate.1.outcome? id = some o ∧
      (o.value = none ∧ o.fault = none ↔ c.fallback = none ∧
        (c.MissesKey (c.inputs.map g.evaluate.1.value?) ∨ ∃ x, c.formula? = some (.number x) ∧ x.isFinite = false)) ∧
      (∀ text code x, c.formula? = some (.expression text) → Formula.compile text c.inputs.length = .ok code →
        Formula.execute code (c.inputs.map g.evaluate.1.value?) = .ok x → x.isFinite = false →
        o = ⟨some (.eval .nonFinite), c.fallback⟩) ∧
      ∀ x, c.formula? = some (.number x) → x.isFinite = false → o = ⟨none, c.fallback⟩ := by
  obtain ⟨c, hc, ho⟩ := hg.outcome?_eq hid
  refine ⟨c, _, hc, ho, ?_, fun text code x => Cell.outcome_of_result, fun x => Cell.outcome_of_constant⟩
  rw [← Cell.outcome_eq_none_iff]
  rcases c.outcome (c.inputs.map g.evaluate.1.value?) with ⟨fault, value⟩
  rw [Outcome.mk.injEq, and_comm]

private theorem mem_order_feeding (call : Cell.Call) : ⟨1⟩ ∈ (feeding call).evaluate.1.order :=
  (reachable_feeding call).inputs_mem_order (reachable_feeding call).root_mem_order ⟨1⟩ (mem_inputs_feeding call)

/-- A look-up without an input has neither a value nor a fault. -/
theorem missing_explained_of_unasked :
    let g := feeding (.setEntry (.bool true) .null)
    ⟨1⟩ ∈ g.evaluate.1.order ∧ g.evaluate.1.outcome? ⟨1⟩ = some ⟨none, none⟩ := by
  intro g
  have hid : ⟨1⟩ ∈ g.evaluate.1.order := mem_order_feeding _
  obtain ⟨c, o, hc, ho, hmissing, -⟩ := Reachable.missing_explained (reachable_feeding _) hid
  obtain rfl := Option.some.inj (hc.symm.trans (cell?_feeding _))
  obtain ⟨hvalue, hfault⟩ := hmissing.2 ⟨rfl, Or.inl ⟨rfl, List.cons_ne_nil _ _, nofun⟩⟩
  obtain ⟨fault, value⟩ := o
  obtain rfl : value = none := hvalue
  obtain rfl : fault = none := hfault
  exact ⟨hid, ho⟩

/-- A constant that is no number has no value, no fault is recorded for it, and it is no look-up. -/
theorem not_explained_of_nan :
    let g := feeding (.setFormula (.number .nan))
    g.Reachable ∧ g.evaluate.1.outcome? ⟨1⟩ = some ⟨none, none⟩ ∧
      ∃ c, g.cell? ⟨1⟩ = some c ∧ c.formula? = some (.number .nan) := by
  intro g
  have hg : g.Reachable := reachable_feeding _
  have hcell : g.cell? ⟨1⟩ = _ := cell?_feeding _
  obtain ⟨c, hc, ho⟩ := hg.outcome?_eq (mem_order_feeding _)
  obtain rfl := Option.some.inj (hc.symm.trans hcell)
  exact ⟨hg, ho.trans (congrArg some (Cell.outcome_of_constant rfl rfl)), _, hcell, rfl⟩

end Graph

end CellGraph
