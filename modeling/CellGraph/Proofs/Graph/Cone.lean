import CellGraph.Proofs.Graph.Connect
import CellGraph.Proofs.Graph.ConnectionOrder
import CellGraph.Proofs.Graph.Recorded

/-!
# What an outcome depends on

The cone of a cell are the cells from which a path leads to it.  Two graphs whose cells in that cone have the same rule,
fallback, precision and inputs (`Graph.SameCone`) give the cell the same meaning, and so the ledgers of both have the
same outcome for it if it leads to the root in both (`Reachable.outcome_of_cone`).  The orders of evaluation can be as
different as they like, since neither order occurs in the meaning of a cell.
-/

namespace CellGraph

open Relation (ReflTransGen)

/-- Whether two cells come to the same on the same values: names, states and programs that are kept do not matter. -/
structure Cell.SameSource (c d : Cell) : Prop where
  formula : d.formula? = c.formula?
  table : d.table = c.table
  fallback : d.fallback = c.fallback
  precision : d.precision = c.precision
  inputs : d.inputs = c.inputs

theorem Cell.SameSource.rule {c d : Cell} (h : c.SameSource d) : d.rule = c.rule := Rule.ext_views h.formula h.table

namespace Graph

variable {g k : Graph} {n : NodeId}

/-- Whether a path leads from a cell to the root. -/
def Contributes (g : Graph) (n : NodeId) : Prop := ReflTransGen (fun a b => b ∈ g.targets a) n g.root

/-- Whether the cells from which a path leads to a cell are like those in another graph. -/
def SameCone (g k : Graph) (n : NodeId) : Prop :=
  ∀ a c, ReflTransGen (fun a b => b ∈ g.targets a) a n → g.cell? a = some c → ∃ d, k.cell? a = some d ∧ c.SameSource d

/-- A cell means the same in graphs that have the same cone of it. -/
theorem WellFormed.means_of_sameCone (hg : g.WellFormed) (hcone : g.SameCone k n) {o : Outcome} (ho : g.Means n o) :
    k.Means n o := by
  refine ho.of_cone fun a c hpath hc => ?_
  have htargets : ReflTransGen (fun a b => b ∈ g.targets a) a n :=
    ReflTransGen.mono (fun a b => (hg.store.mirror a b).2) _ _ hpath
  obtain ⟨d, hd, hsource⟩ := hcone a c htargets hc
  exact ⟨d, hd, hsource.rule, hsource.fallback, hsource.precision, hsource.inputs⟩

/-- A cell without inputs is all of its cone. -/
theorem WellFormed.sameCone_of_inputs_nil (hg : g.WellFormed) (hnone : g.inputs n = [])
    (hcell : ∀ c, g.cell? n = some c → ∃ d, k.cell? n = some d ∧ c.SameSource d) : g.SameCone k n := by
  intro a c hpath hc
  rcases hpath.cases_tail with rfl | ⟨b, -, hedge⟩
  · exact hcell c hc
  · have hinput : b ∈ g.inputs n := (hg.store.mirror b n).1 hedge
    rw [hnone] at hinput
    exact absurd hinput List.not_mem_nil

/-- The ledger of a graph has the meaning of every cell that leads to the root. -/
theorem Reachable.outcome?_of_contributes (hg : g.Reachable) (hn : g.Contributes n) :
    ∃ o, g.evaluate.1.outcome? n = some o ∧ g.Means n o := by
  refine hg.outcome?_of_mem_order ?_
  rw [hg.means_schedule.1]
  exact (hg.wellFormed.store.mem_schedule_iff hg.wellFormed.root_mem).2 hn

theorem Reachable.outcome?_of_sameCone (hg : g.Reachable) (hk : k.Reachable) (hng : g.Contributes n)
    (hnk : k.Contributes n) (hcone : g.SameCone k n) :
    ∃ o, g.evaluate.1.outcome? n = some o ∧ k.evaluate.1.outcome? n = some o := by
  obtain ⟨o, ho, hmeans⟩ := hg.outcome?_of_contributes hng
  obtain ⟨o', ho', hmeans'⟩ := hk.outcome?_of_contributes hnk
  obtain rfl := hmeans'.unique (hg.wellFormed.means_of_sameCone hcone hmeans)
  exact ⟨o', ho, ho'⟩

theorem Reachable.value?_of_sameCone (hg : g.Reachable) (hk : k.Reachable) (hroot : k.root = g.root)
    (hcone : g.SameCone k g.root) : k.value? = g.value? := by
  obtain ⟨o, ho, hvalue⟩ := hg.value?_of_means
  obtain ⟨o', ho', hvalue'⟩ := hk.value?_of_means
  rw [hroot] at ho'
  rw [hvalue, hvalue', ho'.unique (hg.wellFormed.means_of_sameCone hcone ho)]

/-- The root of a graph stays the root of that graph. -/
theorem Call.root_apply (call : Call) (hstays : call.replaces = false) (g : Graph) : (call.apply g).root = g.root := by
  cases call with
  | create name => rcases g.create_cases name with ⟨id, -, h⟩ | ⟨-, h⟩ <;> rw [Call.apply, h]
  | add c =>
    refine orSelf_keeps (P := fun h => h.root = g.root) rfl fun h hok => ?_
    rcases add_eq_ok hok with rfl | ⟨-, rfl⟩ <;> rfl
  | remove id =>
    refine orSelf_keeps (P := fun h => h.root = g.root) rfl fun h hok => ?_
    obtain ⟨-, rfl⟩ := map_remove_eq_ok hok
    rfl
  | connect source target =>
    rw [Call.apply, Graph.connect]
    split <;> rfl
  | restore d => exact Bool.noConfusion hstays
  | read text => exact Bool.noConfusion hstays
  | readBytes bytes => exact Bool.noConfusion hstays
  | _ => rfl

theorem root_applyAll {calls : List Call} (hstays : ∀ call ∈ calls, call.replaces = false) (g : Graph) :
    (g.applyAll calls).root = g.root := by
  induction calls generalizing g with
  | nil => rfl
  | cons call calls ih =>
    exact (ih (fun call hmem => hstays call (List.mem_cons_of_mem _ hmem)) _).trans
      (call.root_apply (hstays call (List.mem_cons_self ..)) g)

/-- In two graphs that have the same cone of a cell, the ledgers have the same outcome for the cell, if it leads to the
root in both.  So the value of a graph stays the same in all calls that leave the cone of the root as it is. -/
theorem Reachable.outcome_of_cone (hg : g.Reachable) :
    (∀ k : Graph, k.Reachable → ∀ n, g.Contributes n → k.Contributes n → g.SameCone k n →
      ∃ o, g.evaluate.1.outcome? n = some o ∧ k.evaluate.1.outcome? n = some o) ∧
    ∀ calls : List Call, (∀ call ∈ calls, ∀ c, call = .add c → c.Reachable) →
      (∀ call ∈ calls, call.replaces = false) → g.SameCone (g.applyAll calls) g.root →
      (g.applyAll calls).value? = g.value? := by
  refine ⟨fun k hk n => hg.outcome?_of_sameCone hk, fun calls hadd hstays hcone => ?_⟩
  exact hg.value?_of_sameCone (hg.applyAll hadd) (root_applyAll hstays g) hcone

/-- A constant that feeds the root, in two graphs with different roots, names and other cells, and the first graph with
one more cell and another name for the constant. -/
theorem outcome_of_cone_of_constant :
    let g := initial.applyAll [.create "a", .onCell ⟨1⟩ (.setFormula (.number 2)), .connect ⟨1⟩ ⟨0⟩]
    let k := (ofConfig ⟨"sum", "$1 + 1", true⟩).applyAll
      [.create "b", .create "c", .onCell ⟨1⟩ (.setFormula (.number 2)), .connect ⟨1⟩ ⟨0⟩]
    (∃ o, g.evaluate.1.outcome? ⟨1⟩ = some o ∧ k.evaluate.1.outcome? ⟨1⟩ = some o) ∧
      (g.applyAll [.create "idle", .onCell ⟨1⟩ (.setName "b")]).value? = g.value? := by
  intro g k
  have hg : g.Reachable := (Reachable.new .standard).applyAll (Call.reachable_of_not_adds rfl)
  have hk : k.Reachable := (Reachable.new _).applyAll (Call.reachable_of_not_adds rfl)
  have hbare : (initial.applyAll [.create "a", .onCell ⟨1⟩ (.setFormula (.number 2))]).Reachable :=
    (Reachable.new .standard).applyAll (Call.reachable_of_not_adds rfl)
  have hbare' : ((ofConfig ⟨"sum", "$1 + 1", true⟩).applyAll
      [.create "b", .create "c", .onCell ⟨1⟩ (.setFormula (.number 2))]).Reachable :=
    (Reachable.new _).applyAll (Call.reachable_of_not_adds rfl)
  have hlink := hbare.wellFormed.connect_of_accepts
    (hbare.wellFormed.accepts_root (a := ⟨1⟩) (by decide) (by decide) (by decide))
  have hlink' := hbare'.wellFormed.connect_of_accepts
    (hbare'.wellFormed.accepts_root (a := ⟨1⟩) (by decide) (by decide) (by decide))
  change g = _ at hlink
  change k = _ at hlink'
  have hcone : g.SameCone k ⟨1⟩ := by
    refine hg.wellFormed.sameCone_of_inputs_nil (by rw [hlink]; decide) fun c hc => ?_
    rw [hlink] at hc
    obtain rfl := Option.some.inj hc
    rw [hlink']
    exact ⟨_, rfl, rfl, rfl, rfl, rfl, rfl⟩
  have hpath : g.Contributes ⟨1⟩ := .single (by rw [hlink]; decide)
  have hpath' : k.Contributes ⟨1⟩ := .single (by rw [hlink']; decide)
  have hroot : g.SameCone (g.applyAll [.create "idle", .onCell ⟨1⟩ (.setName "b")]) g.root := by
    intro a c _ hc
    have ha : a ∈ g.ids := Store.mem_ids_iff.2 ⟨c, hc⟩
    rw [hlink] at ha hc ⊢
    rcases List.mem_pair.1 ha with rfl | rfl
    · obtain rfl := Option.some.inj hc
      exact ⟨_, rfl, rfl, rfl, rfl, rfl, rfl⟩
    · obtain rfl := Option.some.inj hc
      exact ⟨_, rfl, rfl, rfl, rfl, rfl, rfl⟩
  have hstays : ∀ call ∈ [Call.create "idle", .onCell ⟨1⟩ (.setName "b")], call.replaces = false := by
    intro call hcall
    rcases List.mem_pair.1 hcall with rfl | rfl <;> rfl
  obtain ⟨houtcome, hvalue⟩ := Reachable.outcome_of_cone hg
  exact ⟨houtcome k hk ⟨1⟩ hpath hpath' hcone, hvalue _ (Call.reachable_of_not_adds rfl) hstays hroot⟩

end Graph

end CellGraph
