import CellGraph.Proofs.Cell.Outcome
import CellGraph.Proofs.Graph.Reachable

/-!
# Programs that are kept

A cell keeps the program of its last compilation, also across graphs: it may be copied, taken out of a graph, put into
another one or put in the place of another cell (`Graph.Assigned`).  Whatever a caller does, every cell is reachable
(`Graph.Assigned.cell`), and so a program that is not marked stale is the one that a new compilation would give.  What
a cell comes to is therefore no matter of its history (`programs_current`).
-/

namespace CellGraph

namespace Graph

/-- What a graph can become by calls and by assignments of whole cells: who has a reference to a cell can put any other
cell there. -/
inductive Assigned : Graph → Prop
  | new (config : Config) : Assigned (.ofConfig config)
  | call {g : Graph} (call : Call) : g.Assigned → (∀ c, call = .add c → c.Reachable) → (call.apply g).Assigned
  | assign {g : Graph} (id : NodeId) {c : Cell} : g.Assigned → c.Reachable → (g.modify id fun _ => c).Assigned

theorem Reachable.assigned {g : Graph} (hg : g.Reachable) : g.Assigned := by
  induction hg with
  | new config => exact .new config
  | call call _ hadd ih => exact .call call ih hadd

namespace Assigned

variable {g : Graph}

theorem applyAll (hg : g.Assigned) {calls : List Call} (hadd : ∀ call ∈ calls, ∀ c, call = .add c → c.Reachable) :
    (g.applyAll calls).Assigned := by
  induction calls generalizing g with
  | nil => exact hg
  | cons call calls ih =>
    have hcall : (call.apply g).Assigned := .call call hg (hadd call (List.mem_cons_self ..))
    exact ih hcall fun call hmem => hadd call (List.mem_cons_of_mem _ hmem)

private theorem allReachable (hg : g.Assigned) : AllReachable g.store := by
  induction hg with
  | new config => exact allReachable_ofConfig config
  | call call _ hadd ih => exact kept_allReachable.apply ih call hadd
  | assign id _ hc ih => exact AllReachable.modify ih fun _ _ _ => hc

/-- The cells of a graph are reachable, also if some were put in the place of others. -/
theorem cell (hg : g.Assigned) {id : NodeId} {c : Cell} (hc : g.cell? id = some c) : c.Reachable :=
  hg.allReachable id c hc

/-- A cell that is taken out of a graph is reachable. -/
theorem removed (hg : g.Assigned) {id : NodeId} {c : Cell} {h : Graph} (hremove : g.remove id = .ok (c, h)) :
    c.Reachable := by
  obtain ⟨-, d, hd, rfl, -⟩ := remove_eq_ok hremove
  exact (hg.cell hd).clearInputs

end Assigned

end Graph

namespace Cell

variable {c d : Cell}

theorem UpToDate.compile_of_clean (h : c.UpToDate) (hstate : c.state = .clean) :
    c.rule.compile c.inputs.length = .ok c.program := by
  rwa [UpToDate, hstate] at h

theorem UpToDate.compile_of_failed (h : c.UpToDate) {e : Formula.CompileError} (hstate : c.state = .failed e) :
    c.rule.compile c.inputs.length = .error e ∧ c.program = .missing := by
  rwa [UpToDate, hstate] at h

/-- Cells that are up to date and have the same configuration and inputs come to the same, wherever they are. -/
theorem UpToDate.fst_evaluate_congr (hc : c.UpToDate) (hd : d.UpToDate) (hrule : d.rule = c.rule)
    (hfallback : d.fallback = c.fallback) (hprecision : d.precision = c.precision) (hinputs : d.inputs = c.inputs)
    (l : Ledger) : (d.evaluate l).1 = (c.evaluate l).1 := by
  rw [hd.fst_evaluate, hc.fst_evaluate, hinputs]
  exact outcome_congr hrule hfallback hprecision hinputs _

end Cell

/-- A reachable cell that is clean has the program that a new compilation gives, and one that failed to compile fails
again with the same error and has no program.  So the outcome of evaluating it is that of its configuration, and two
cells with the same formula, table, fallback, precision and inputs have the same outcome.  Every cell in a graph and
every cell that is taken out of one is reachable. -/
theorem programs_current :
    (∀ c : Cell, c.Reachable →
      (c.state = .clean → c.rule.compile c.inputs.length = .ok c.program) ∧
      (∀ e, c.state = .failed e → c.rule.compile c.inputs.length = .error e ∧ c.program = .missing) ∧
      (∀ l : Ledger, (c.evaluate l).1 = c.outcome (c.inputs.map l.value?)) ∧
      ∀ d : Cell, d.Reachable → d.formula? = c.formula? → d.table = c.table → d.fallback = c.fallback →
        d.precision = c.precision → d.inputs = c.inputs → ∀ l : Ledger, (d.evaluate l).1 = (c.evaluate l).1) ∧
    ∀ g : Graph, g.Assigned →
      (∀ id c, g.cell? id = some c → c.Reachable) ∧ ∀ id c h, g.remove id = .ok (c, h) → c.Reachable := by
  refine ⟨fun c hc => ?_, fun g hg => ⟨fun _ _ => hg.cell, fun _ _ _ => hg.removed⟩⟩
  have hcurrent := hc.upToDate
  refine ⟨hcurrent.compile_of_clean, fun e => hcurrent.compile_of_failed, hcurrent.fst_evaluate, ?_⟩
  intro d hd hformula htable hfallback hprecision hinputs l
  have hrule : d.rule = c.rule := Rule.ext_views hformula htable
  exact hcurrent.fst_evaluate_congr hd.upToDate hrule hfallback hprecision hinputs l

/-- A cell whose table was compiled and then got another entry, against one that has both entries from the start. -/
theorem programs_current_of_edited :
    let bare := Cell.bare ⟨1⟩ "a"
    let compiled := (bare.setEntry (.bool true) .null).compile
    let edited := compiled.setEntry (.bool false) .null
    let fresh := (bare.setEntry (.bool true) .null).setEntry (.bool false) .null
    let moved := Graph.initial.modify ⟨0⟩ fun _ => edited
    compiled.state = .clean ∧ compiled.rule.compile 0 = .ok compiled.program ∧
      bare.compile.state = .failed .notInitialized ∧ bare.rule.compile 0 = .error .notInitialized ∧
      (∀ l : Ledger, (edited.evaluate l).1 = (fresh.evaluate l).1) ∧
      moved.cell? ⟨0⟩ = some edited ∧ edited.Reachable := by
  intro bare compiled edited fresh moved
  have hbare : bare.Reachable := .bare ⟨1⟩ "a"
  have hcompiled : compiled.Reachable := (hbare.call (.setEntry (.bool true) .null)).call .compile
  have hedited : edited.Reachable := hcompiled.call (.setEntry (.bool false) .null)
  have hfresh : fresh.Reachable := (hbare.call (.setEntry (.bool true) .null)).call (.setEntry (.bool false) .null)
  have hfailed : bare.compile.Reachable := hbare.call .compile
  have hmoved : moved.Assigned := .assign ⟨0⟩ (.new .standard) hedited
  have hcell : moved.cell? ⟨0⟩ = some edited := rfl
  exact ⟨rfl, (programs_current.1 compiled hcompiled).1 rfl, rfl,
    ((programs_current.1 bare.compile hfailed).2.1 _ rfl).1,
    (programs_current.1 fresh hfresh).2.2.2 edited hedited rfl rfl rfl rfl rfl, hcell,
    (programs_current.2 moved hmoved).1 _ _ hcell⟩

end CellGraph
