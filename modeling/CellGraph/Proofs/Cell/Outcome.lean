import CellGraph.Proofs.Cell.Reachable

/-!
# Outcomes of cells

`Cell.outcome` says what a cell comes to on the values of its inputs, by its configuration alone: the program that was
kept and the state do not occur in it.  A reachable cell that is not stale has the program of its present configuration
(`Reachable.upToDate`), so evaluating it gives that outcome whether it has to be compiled or not (`fst_evaluate`).
-/

namespace CellGraph

/-- A rule is known by its formula and its table. -/
theorem Rule.ext_views {r s : Rule} (hformula : r.formula? = s.formula?) (htable : r.table = s.table) : r = s := by
  cases r with
  | formula f =>
    cases s with
    | formula f' => rw [Option.some.inj hformula]
    | lookup t' => nomatch hformula
  | lookup t =>
    cases s with
    | formula f' => nomatch hformula
    | lookup t' =>
      obtain rfl : t = t' := htable
      rfl

theorem Rule.formula?_eq_some_iff {r : Rule} {f : Formula} : r.formula? = some f ↔ r = .formula f := by
  cases r with
  | formula g => rw [Rule.formula?, Option.some.injEq, Rule.formula.injEq]
  | lookup t => exact iff_of_false nofun nofun

namespace Cell

/-- A value with the precision of a cell, if the cell has one. -/
def rounded (c : Cell) (v : Value) : Value :=
  match c.precision with
  | some places => v.roundTo places
  | none => v

/-- What a cell comes to on the values of its inputs. -/
def outcome (c : Cell) (args : List (Option Value)) : Outcome :=
  match c.rule.compile c.inputs.length with
  | .error e => ⟨some (.compile e), c.fallback⟩
  | .ok program =>
    match program.run args with
    | .ok v => ⟨none, (v.map c.rounded).or c.fallback⟩
    | .error e => ⟨some (.eval e), c.fallback⟩

/-- The program of a cell that is not stale is that of its present configuration. -/
def UpToDate (c : Cell) : Prop :=
  match c.state with
  | .stale => True
  | .clean => c.rule.compile c.inputs.length = .ok c.program
  | .failed e => c.rule.compile c.inputs.length = .error e ∧ c.program = .missing

/-- Cells with the same rule, fallback, precision and inputs come to the same on the same values. -/
theorem outcome_congr {c d : Cell} (hrule : d.rule = c.rule) (hfallback : d.fallback = c.fallback)
    (hprecision : d.precision = c.precision) (hinputs : d.inputs = c.inputs) (args : List (Option Value)) :
    d.outcome args = c.outcome args := by
  have hrounded : d.rounded = c.rounded := by
    funext v
    rw [rounded, hprecision, rounded]
  rw [outcome, hrule, hinputs, hfallback, hrounded, outcome]

variable {c : Cell}

theorem settle_eq (c : Cell) (v : Option Value) : c.settle v = (v.map c.rounded).or c.fallback := by
  unfold settle rounded
  rcases v with _ | v <;> rcases c.precision with _ | places <;> rfl

theorem upToDate_of_stale (h : c.state = .stale) : c.UpToDate := by
  rw [UpToDate, h]
  trivial

/-- Compiling a cell that is up to date gives it the program of its configuration, which stays. -/
theorem UpToDate.compile_cases (h : c.UpToDate) :
    (∃ program, c.rule.compile c.inputs.length = .ok program ∧ c.compile = { c with program, state := .clean }) ∨
    (∃ e, c.rule.compile c.inputs.length = .error e ∧
      c.compile = { c with program := .missing, state := .failed e }) := by
  obtain ⟨id, name, inputs, rule, fallback, precision, state, program⟩ := c
  cases state with
  | stale =>
    rcases hc : rule.compile inputs.length with e | program'
    · exact Or.inr ⟨e, rfl, by simp only [Cell.compile, hc]⟩
    · exact Or.inl ⟨program', rfl, by simp only [Cell.compile, hc]⟩
  | clean => exact Or.inl ⟨program, h, rfl⟩
  | failed e =>
    obtain ⟨hc, rfl⟩ : rule.compile inputs.length = .error e ∧ program = .missing := h
    exact Or.inr ⟨e, hc, rfl⟩

theorem UpToDate.compile (h : c.UpToDate) : c.compile.UpToDate := by
  rcases h.compile_cases with ⟨program, hc, hnew⟩ | ⟨e, hc, hnew⟩
  · rw [hnew]
    exact hc
  · rw [hnew]
    exact ⟨hc, rfl⟩

theorem UpToDate.call (h : c.UpToDate) (call : Call) : (call.apply c).UpToDate := by
  cases call with
  | setName name => exact h
  | setEntry key v =>
    cases key with
    | null => exact h
    | _ => exact upToDate_of_stale rfl
  | compile => exact h.compile
  | evaluate l =>
    rw [Call.apply, snd_evaluate]
    exact h.compile
  | _ => exact upToDate_of_stale rfl

/-- A reachable cell that is not stale has the program of its present configuration. -/
theorem Reachable.upToDate (h : c.Reachable) : c.UpToDate := by
  induction h with
  | bare id name => exact upToDate_of_stale rfl
  | call call _ ih => exact ih.call call
  | removeInput id _ ih =>
    unfold Cell.removeInput
    split
    · exact upToDate_of_stale rfl
    · exact ih
  | clearInputs _ ih =>
    unfold Cell.clearInputs
    split
    · exact ih
    · exact upToDate_of_stale rfl
  | addInput => exact upToDate_of_stale rfl
  | setInputs => exact upToDate_of_stale rfl
  | invalidate => exact upToDate_of_stale rfl

/-- Evaluating a cell that is up to date gives what its configuration says. -/
theorem UpToDate.fst_evaluate (h : c.UpToDate) (l : Ledger) : (c.evaluate l).1 = c.outcome (c.inputs.map l.value?) := by
  rcases h.compile_cases with ⟨program, hc, hnew⟩ | ⟨e, hc, hnew⟩
  · simp only [evaluate, outcome, hc, hnew, settle_eq]
    rcases program.run (c.inputs.map l.value?) with e | v
    · rfl
    · rfl
  · simp only [evaluate, outcome, hc, hnew, settle_eq]
    rfl

end Cell

end CellGraph
