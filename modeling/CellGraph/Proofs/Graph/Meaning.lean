import CellGraph.Proofs.Cell.Outcome
import CellGraph.Proofs.Graph.WellFormed
import CellGraph.Proofs.Store.Schedule
import Mathlib.Data.List.Forall2

/-!
# The meaning of a graph

The meaning of a cell is what its configuration makes of the meanings of its inputs (`Means`).  It does not mention
orders, ledgers, programs that were kept or cells that do not lead to the root.  Evaluating a reachable graph goes
through the cells that lead to the root, each after its inputs, and records the meaning of each.
-/

namespace CellGraph

/-- The outcome of a cell that has had its turn is found where its id is in the order. -/
theorem Ledger.outcome?_of_forall₂ {R : NodeId → Outcome → Prop} {l : Ledger} {earlier later : List NodeId}
    (horder : l.order = earlier ++ later) (h : List.Forall₂ R earlier l.outcomes) {id : NodeId} (hid : id ∈ earlier) :
    ∃ o, l.outcome? id = some o ∧ R id o := by
  obtain ⟨order, outcomes⟩ := l
  obtain rfl : order = earlier ++ later := horder
  show ∃ o, ((earlier ++ later).findIdx? (· == id)).bind (fun i => outcomes[i]?) = some o ∧ R id o
  change List.Forall₂ R earlier outcomes at h
  induction h with
  | nil => exact absurd hid List.not_mem_nil
  | @cons i o earlier outcomes hio _ ih =>
    rw [List.cons_append, List.findIdx?_cons]
    by_cases hi : i = id
    · subst hi
      exact ⟨o, by simp, hio⟩
    · obtain ⟨o', ho', hR⟩ := ih ((List.mem_cons.1 hid).resolve_left (Ne.symm hi))
      refine ⟨o', ?_, hR⟩
      rw [if_neg (by simpa using hi), Option.bind_map]
      exact ho'

namespace Graph

open Relation (ReflTransGen)

variable {g : Graph}

/-- The meaning of a cell is its outcome on the values that its inputs mean, in their order. -/
inductive Means (g : Graph) : NodeId → Outcome → Prop
  | of_inputs {id : NodeId} {c : Cell} (m : NodeId → Outcome) : g.cell? id = some c →
      (∀ i ∈ c.inputs, Means g i (m i)) → Means g id (c.outcome (c.inputs.map fun i => (m i).value))

/-- A cell has one meaning at most. -/
theorem Means.unique {id : NodeId} {o o' : Outcome} (h : g.Means id o) (h' : g.Means id o') : o = o' := by
  induction h generalizing o' with
  | @of_inputs id c m hc _ ih =>
    obtain ⟨m', hc', hm'⟩ := h'
    obtain rfl := Option.some.inj (hc.symm.trans hc')
    congr 1
    apply List.map_congr_left
    intro i hi
    rw [ih i hi (hm' i hi)]

/-- The meaning of a cell is no matter of the cells that do not lead to it, nor of names and programs that are kept. -/
theorem Means.of_cone {k : Graph} {id : NodeId} {o : Outcome} (h : g.Means id o)
    (hcone : ∀ a c, ReflTransGen (fun a b => a ∈ g.inputs b) a id → g.cell? a = some c → ∃ d, k.cell? a = some d ∧
      d.rule = c.rule ∧ d.fallback = c.fallback ∧ d.precision = c.precision ∧ d.inputs = c.inputs) :
    k.Means id o := by
  induction h with
  | @of_inputs id c m hc _ ih =>
    obtain ⟨d, hd, hrule, hfallback, hprecision, hinputs⟩ := hcone id c .refl hc
    have hmeans : ∀ i ∈ d.inputs, k.Means i (m i) := by
      intro i hi
      rw [hinputs] at hi
      refine ih i hi fun a e hpath => hcone a e (hpath.tail ?_)
      rwa [inputs, Store.inputs_of_cell? hc]
    rw [← Cell.outcome_congr hrule hfallback hprecision hinputs, ← hinputs]
    exact .of_inputs m hd hmeans

/-- A cell whose inputs have had their turn gets its meaning.  The cells that have not had theirs are as they were. -/
private theorem means_evaluateNext (hupToDate : ∀ id c, g.cell? id = some c → c.UpToDate) {l : Ledger} {s : Store}
    {earlier later : List NodeId} {id : NodeId} (horder : l.order = earlier ++ id :: later) (hid : id ∈ g.ids)
    (hinputs : ∀ i ∈ g.inputs id, i ∈ earlier) (hcell : s.cell? id = g.cell? id)
    (h : List.Forall₂ g.Means earlier l.outcomes) :
    ∃ o, (Store.evaluateNext l s id).1 = l.record o ∧ g.Means id o := by
  obtain ⟨c, hc⟩ := Store.mem_ids_iff.1 hid
  change g.cell? id = some c at hc
  rw [inputs, Store.inputs_of_cell? hc] at hinputs
  refine ⟨(c.evaluate l).1, by rw [Store.evaluateNext, hcell, hc], ?_⟩
  rw [(hupToDate id c hc).fst_evaluate]
  have hlookup : ∀ i ∈ c.inputs, ∃ o, l.outcome? i = some o ∧ g.Means i o :=
    fun i hi => Ledger.outcome?_of_forall₂ horder h (hinputs i hi)
  have : Nonempty Outcome := ⟨⟨none, none⟩⟩
  choose! m hm hmeans using hlookup
  have hvalues : c.inputs.map l.value? = c.inputs.map fun i => (m i).value := by
    apply List.map_congr_left
    intro i hi
    rw [Ledger.value?, hm i hi]
    rfl
  rw [hvalues]
  exact .of_inputs m hc hmeans

/-- The cells of an order get their meanings one after the other, if each comes after its inputs. -/
private theorem means_foldl (hupToDate : ∀ id c, g.cell? id = some c → c.UpToDate) {order : List NodeId}
    (hnodup : order.Nodup) (hmem : ∀ id ∈ order, id ∈ g.ids)
    (hinputs : ∀ earlier id later, order = earlier ++ id :: later → ∀ i ∈ g.inputs id, i ∈ earlier) :
    ∀ (later earlier : List NodeId) (l : Ledger) (s : Store), order = earlier ++ later → l.order = order →
      List.Forall₂ g.Means earlier l.outcomes → (∀ id ∈ later, s.cell? id = g.cell? id) →
      (later.foldl (fun p id => Store.evaluateNext p.1 p.2 id) (l, s)).1.order = order ∧
        List.Forall₂ g.Means order (later.foldl (fun p id => Store.evaluateNext p.1 p.2 id) (l, s)).1.outcomes := by
  intro later
  induction later with
  | nil =>
    intro earlier l s hsplit horder h _
    rw [List.append_nil] at hsplit
    exact ⟨horder, hsplit ▸ h⟩
  | cons id later ih =>
    intro earlier l s hsplit horder h hcells
    have hid : id ∈ g.ids := hmem id (hsplit ▸ List.mem_append_right _ (List.mem_cons_self ..))
    have hcell := hcells id (List.mem_cons_self ..)
    obtain ⟨o, hrecord, hmeans⟩ :=
      means_evaluateNext hupToDate (horder.trans hsplit) hid (hinputs earlier id later hsplit) hcell h
    obtain ⟨c, hc⟩ := Store.mem_ids_iff.1 hid
    have hstore : (Store.evaluateNext l s id).2 = s.modify id fun _ => c.compile :=
      Store.snd_evaluateNext l (hcell.trans hc)
    have hnew : id ∉ later := by
      rw [hsplit, List.nodup_append] at hnodup
      exact (List.nodup_cons.1 hnodup.2.1).1
    rw [List.foldl_cons]
    refine ih (earlier ++ [id]) _ _ (by simp [hsplit]) ?_ ?_ ?_
    · show (Store.evaluateNext l s id).1.order = order
      rw [hrecord]
      exact horder
    · show List.Forall₂ g.Means (earlier ++ [id]) (Store.evaluateNext l s id).1.outcomes
      rw [hrecord]
      exact List.rel_append h (.cons hmeans .nil)
    · intro i hi
      show (Store.evaluateNext l s id).2.cell? i = g.cell? i
      have hne : i ≠ id := fun he => hnew (he ▸ hi)
      rw [hstore, Store.cell?_modify, if_neg hne]
      exact hcells i (List.mem_cons_of_mem _ hi)

/-- Evaluating a graph records the meanings of the cells of its schedule. -/
theorem Reachable.means_schedule (hg : g.Reachable) :
    g.evaluate.1.order = g.store.schedule g.root ∧
      List.Forall₂ g.Means (g.store.schedule g.root) g.evaluate.1.outcomes := by
  have hwell := hg.wellFormed
  have hmem : ∀ id ∈ g.store.schedule g.root, id ∈ g.ids :=
    fun id hid => hwell.store.mem_sort_iff.1 (List.mem_filter.1 hid).1
  exact means_foldl (fun _ _ hc => (hg.cell hc).upToDate) (Store.WellFormed.nodup_schedule g.store g.root) hmem
    (fun _ _ _ hsplit => hwell.store.inputs_before_schedule hwell.root_mem hsplit)
    (g.store.schedule g.root) [] (.ofOrder _) g.store rfl rfl .nil fun _ _ => rfl

/-- Outcomes that are the meanings of the same cells are the same. -/
private theorem outcomes_eq_of_means {k : Graph} {ids : List NodeId} {outcomes outcomes' : List Outcome}
    (hg : List.Forall₂ g.Means ids outcomes) (hk : List.Forall₂ k.Means ids outcomes')
    (h : ∀ id ∈ ids, ∀ o, g.Means id o → k.Means id o) : outcomes' = outcomes := by
  induction hg generalizing outcomes' with
  | nil => cases hk with | nil => rfl
  | @cons id o ids outcomes ho _ ih =>
    cases hk with
    | cons ho' hrest =>
      rw [ho'.unique (h id (List.mem_cons_self ..) o ho), ih hrest fun i hi => h i (List.mem_cons_of_mem _ hi)]

/-- Reachable graphs with the same schedule, whose cells mean the same, have the same ledger. -/
theorem Reachable.evaluate_congr {k : Graph} (hg : g.Reachable) (hk : k.Reachable)
    (hschedule : k.store.schedule k.root = g.store.schedule g.root)
    (hmeans : ∀ id ∈ g.store.schedule g.root, ∀ o, g.Means id o → k.Means id o) : k.evaluate.1 = g.evaluate.1 := by
  obtain ⟨horder, houtcomes⟩ := hg.means_schedule
  obtain ⟨horder', houtcomes'⟩ := hk.means_schedule
  rw [hschedule] at houtcomes'
  have hsame := outcomes_eq_of_means houtcomes houtcomes' hmeans
  rw [hschedule, ← horder] at horder'
  generalize g.evaluate.1 = l at horder' hsame
  generalize k.evaluate.1 = l' at horder' hsame
  obtain ⟨order, outcomes⟩ := l
  obtain ⟨order', outcomes'⟩ := l'
  obtain rfl : order' = order := horder'
  obtain rfl : outcomes' = outcomes := hsame
  rfl

/-- The last outcome belongs to the last cell. -/
private theorem getLast?_of_forall₂ {R : NodeId → Outcome → Prop} {ids : List NodeId} {outcomes : List Outcome}
    (h : List.Forall₂ R ids outcomes) {id : NodeId} (hid : ids.getLast? = some id) :
    ∃ o, outcomes.getLast? = some o ∧ R id o := by
  rw [← List.forall₂_reverse_iff] at h
  rw [List.getLast?_eq_head?_reverse] at hid ⊢
  revert h hid
  generalize ids.reverse = is
  generalize outcomes.reverse = os
  rintro (_ | ⟨hR, -⟩) hid
  · simp at hid
  · exact ⟨_, rfl, Option.some.inj hid ▸ hR⟩

/-- The value of a graph is the one that the root means. -/
theorem Reachable.value?_of_means (hg : g.Reachable) : ∃ o, g.Means g.root o ∧ g.value? = o.value := by
  have hlast := hg.wellFormed.store.getLast?_schedule hg.wellFormed.root_mem
  obtain ⟨o, ho, hm⟩ := getLast?_of_forall₂ hg.means_schedule.2 hlast
  refine ⟨o, hm, ?_⟩
  rw [value?, Ledger.result?, ho]
  rfl

/-- Evaluating a graph goes exactly through the cells from which the root can be reached, each once and after its inputs
and the root last, and records the one meaning of each.  The value of the graph is the one that the root means. -/
theorem Reachable.means (hg : g.Reachable) :
    g.evaluate.1.order.Nodup ∧
      (∀ id, id ∈ g.evaluate.1.order ↔ ReflTransGen (fun a b => b ∈ g.targets a) id g.root) ∧
      (∀ earlier id later, g.evaluate.1.order = earlier ++ id :: later → ∀ i ∈ g.inputs id, i ∈ earlier) ∧
      g.evaluate.1.order.getLast? = some g.root ∧
      List.Forall₂ (fun id o => g.Means id o ∧ ∀ o', g.Means id o' → o' = o) g.evaluate.1.order g.evaluate.1.outcomes ∧
      ∃ o, g.Means g.root o ∧ g.value? = o.value := by
  have hwell := hg.wellFormed
  have hroot : g.root ∈ g.store.ids := hwell.root_mem
  obtain ⟨horder, hmeans⟩ := hg.means_schedule
  rw [horder]
  refine ⟨Store.WellFormed.nodup_schedule g.store g.root, fun id => hwell.store.mem_schedule_iff hroot,
    fun _ _ _ hsplit => hwell.store.inputs_before_schedule hroot hsplit, hwell.store.getLast?_schedule hroot, ?_,
    hg.value?_of_means⟩
  exact hmeans.imp fun id o ho => ⟨ho, fun o' ho' => ho'.unique ho⟩

/-- A graph with a constant that feeds the root. -/
theorem means_of_connected :
    let g := initial.applyAll [.create "a", .onCell ⟨1⟩ (.setFormula (.number 2)), .connect ⟨1⟩ ⟨0⟩]
    g.evaluate.1.order.getLast? = some g.root ∧
      List.Forall₂ (fun id o => g.Means id o ∧ ∀ o', g.Means id o' → o' = o) g.evaluate.1.order g.evaluate.1.outcomes ∧
      ∃ o, g.Means g.root o ∧ g.value? = o.value := by
  intro g
  have hg : g.Reachable := by
    refine (Reachable.new .standard).applyAll ?_
    simp only [List.mem_cons, List.not_mem_nil, or_false]
    rintro call (rfl | rfl | rfl) c hc
    · nomatch hc
    · nomatch hc
    · nomatch hc
  obtain ⟨-, -, -, hlast, hmeans, hvalue⟩ := Reachable.means (g := g) hg
  exact ⟨hlast, hmeans, hvalue⟩

end Graph

end CellGraph
