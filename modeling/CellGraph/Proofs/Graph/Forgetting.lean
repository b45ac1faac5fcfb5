import CellGraph.Proofs.Graph.Alike
import CellGraph.Proofs.Store.Forgetting

/-!
# Graphs without their programs

Two graphs are like each other if they differ at most in what was compiled of their cells (`Graph.Like`).  Nothing that
can be read off a graph tells them apart, its trace with a given ledger included (`Like.formatTrace`), and every
operation gives the same answer on both and keeps them like each other.
-/

namespace CellGraph.Graph

/-- The graph as if no cell of it had ever been compiled. -/
def forget (g : Graph) : Graph := { g with store := g.store.forget }

/-- Two graphs that differ at most in what was compiled of their cells. -/
structure Like (g k : Graph) : Prop where
  store : g.store.Like k.store
  root : g.root = k.root
  config : g.config = k.config

namespace Like

variable {g k : Graph}

theorem refl (g : Graph) : g.Like g := ⟨.refl _, rfl, rfl⟩

theorem symm (h : g.Like k) : k.Like g := ⟨h.store.symm, h.root.symm, h.config.symm⟩

theorem trans {l : Graph} (hgk : g.Like k) (hkl : k.Like l) : g.Like l :=
  ⟨hgk.store.trans hkl.store, hgk.root.trans hkl.root, hgk.config.trans hkl.config⟩

theorem forget (h : g.Like k) : g.forget = k.forget := by
  simp only [Graph.forget, h.store.forget, h.root, h.config]

/-! ### What is the same -/

theorem alike (h : g.Like k) : g.Alike k := by
  refine ⟨⟨h.root.symm, h.store.ids.symm, fun id => (h.store.targets id).symm⟩, fun id => ?_⟩
  rcases h.store.cell_cases id with ⟨hg, hk⟩ | ⟨c, d, hg, hk, hcd⟩
  · rw [Graph.cell?, hk, Graph.cell?, hg]
  · rw [Graph.cell?, hk, Graph.cell?, hg]
    exact congrArg some (Cell.record_of_forget hcd).symm

theorem orphans (h : g.Like k) : g.orphans = k.orphans := by
  have hids : g.ids = k.ids := h.store.ids
  have htargets : g.targets = k.targets := funext h.store.targets
  rw [Graph.orphans, hids, h.root, htargets, Graph.orphans]

theorem leaves (h : g.Like k) : g.leaves = k.leaves := by
  have hids : g.ids = k.ids := h.store.ids
  have hinputs : g.inputs = k.inputs := funext h.store.inputs
  rw [Graph.leaves, hids, hinputs, Graph.leaves]

theorem dump (h : g.Like k) : g.dump = k.dump := by
  rw [Graph.dump, h.config, h.alike.document.symm, Graph.dump]

theorem canConnect (h : g.Like k) (a b : NodeId) : g.canConnect a b = k.canConnect a b := by
  have hinputs : g.inputs k.root = k.inputs k.root := h.store.inputs _
  simp only [Graph.canConnect, Graph.contains, Graph.isConnected, Store.isComplete, h.root, h.store.contains, hinputs,
    h.store.hasEdge, h.store.sortWith, h.store.size]

/-! ### Traces -/

/-- A reference names no cell in either graph, or cells of the same name. -/
theorem referenced?_cases (h : g.Like k) (inputs : List NodeId) (digits : List Char) :
    (Trace.referenced? g inputs digits = none ∧ Trace.referenced? k inputs digits = none) ∨
    ∃ c d, Trace.referenced? g inputs digits = some c ∧ Trace.referenced? k inputs digits = some d ∧
      c.name = d.name := by
  unfold Trace.referenced?
  split
  · exact Or.inl ⟨rfl, rfl⟩
  · rename_i i hi
    rcases inputs[i]? with _ | id
    · exact Or.inl ⟨rfl, rfl⟩
    · rcases h.store.cell_cases id with hnone | ⟨c, d, hg, hk, hcd⟩
      · exact Or.inl hnone
      · exact Or.inr ⟨c, d, hg, hk, congrArg Record.name (Cell.record_of_forget hcd)⟩

theorem formulaText (h : g.Like k) (inputs : List NodeId) (cs : List Char) :
    Trace.formulaText g inputs cs = Trace.formulaText k inputs cs := by
  fun_induction Trace.formulaText g inputs cs with
  | case1 cs hnone => rw [Trace.formulaText_of_plain hnone]
  | case2 cs dollar rest hrest hlen digits shown ih =>
    rw [Trace.formulaText_of_reference hrest]
    rcases h.referenced?_cases inputs digits with ⟨hg, hk⟩ | ⟨c, d, hg, hk, hname⟩
    · simp only [shown, hg, digits, hk, ih]
    · simp only [shown, hg, digits, hk, hname, ih]

theorem ruleText (h : g.Like k) {c d : Cell} (hrule : c.rule = d.rule) (hinputs : c.inputs = d.inputs) :
    Trace.ruleText g c = Trace.ruleText k d := by
  unfold Trace.ruleText
  simp only [hrule, hinputs, h.formulaText]

/-- What is shown at the places of a walk is the same in both graphs. -/
theorem lines_walk (h : g.Like k) (l : Ledger) (seen : List (NodeId × Nat)) (places : List (NodeId × List Bool)) :
    (g.walk seen places).map (fun e => e.line g l) = (k.walk seen places).map fun e => e.line k l := by
  -- the ids that were seen and the places are the same in both walks, so one goes as the other does
  fun_induction Graph.walk g seen places with
  | case1 seen => simp only [Graph.walk, List.map_nil]
  | case2 seen id branch places level hseen ih =>
    rw [walk_of_seen k hseen, List.map_cons, List.map_cons, ih]
    rfl
  | case3 seen id branch places hseen hg ih =>
    rw [walk_of_missing hseen (h.store.cell?_eq_none hg), List.map_cons, List.map_cons, ih]
    rfl
  | case4 seen id branch places hseen c hg hlt ih =>
    obtain ⟨d, hk, hcd⟩ := h.store.exists_cell? hg
    have hrecord : Record.ofCell d = Record.ofCell c := (Cell.record_of_forget hcd).symm
    have hinputs : d.inputs = c.inputs := congrArg Record.inputs hrecord
    have hname : d.name = c.name := congrArg Record.name hrecord
    have hprecision : d.precision = c.precision := congrArg Record.precision hrecord
    have hfallback : d.fallback = c.fallback := congrArg Record.fallback hrecord
    have hrule : Trace.ruleText k d = Trace.ruleText g c :=
      (h.ruleText (Cell.rule_of_record hrecord).symm hinputs.symm).symm
    rw [walk_of_cell hseen hk, List.map_cons, List.map_cons, hinputs, ih]
    simp only [Trace.Entry.line, hname, hprecision, hfallback, hrule]

theorem formatTrace (h : g.Like k) (l : Ledger) (id : NodeId) : g.formatTrace l id = k.formatTrace l id := by
  unfold Graph.formatTrace
  rcases h.store.cell_cases id with ⟨hg, hk⟩ | ⟨c, d, hg, hk, hcd⟩
  · simp only [Graph.cell?, hg, hk]
  · have hname : c.name = d.name := congrArg Record.name (Cell.record_of_forget hcd)
    have hlines := congrArg (List.map (· ++ "\n")) (h.lines_walk l [] [(id, [])])
    rw [List.map_map, List.map_map] at hlines
    simp only [Graph.cell?, hg, hk, hname]
    exact congrArg (fun lines => _ ++ String.join lines) hlines

/-! ### What is kept -/

theorem modify (h : g.Like k) {f : Cell → Cell} (hf : Cell.Blind f) (id : NodeId) :
    (g.modify id f).Like (k.modify id f) := ⟨h.store.modify hf id, h.root, h.config⟩

theorem create (h : g.Like k) (name : String) :
    (g.create name).1 = (k.create name).1 ∧ (g.create name).2.Like (k.create name).2 := by
  have hfresh := h.store.freshId?
  rcases g.create_cases name with ⟨id, hid, hg⟩ | ⟨hid, hg⟩ <;>
    rcases k.create_cases name with ⟨id', hid', hk⟩ | ⟨hid', hk⟩
  · obtain rfl : id = id' := Option.some.inj (hid.symm.trans (hfresh.trans hid'))
    rw [hg, hk]
    exact ⟨rfl, h.store.insert rfl, h.root, h.config⟩
  · nomatch hid.symm.trans (hfresh.trans hid')
  · nomatch hid.symm.trans (hfresh.trans hid')
  · rw [hg, hk]
    exact ⟨rfl, h⟩

/-- Cells that differ at most in what was compiled are both refused, for the same reason, or both taken in. -/
theorem add_cases (h : g.Like k) {c d : Cell} (hcd : c.forget = d.forget) :
    (∃ e, g.add c = .error e ∧ k.add d = .error e) ∨ ∃ g' k', g.add c = .ok g' ∧ k.add d = .ok k' ∧ g'.Like k' := by
  have hid : c.id = d.id := congrArg Record.id (Cell.record_of_forget hcd)
  unfold Graph.add
  rcases h.store.cell_cases c.id with ⟨hg, hk⟩ | ⟨c', d', hg, hk, hpresent⟩
  · simp only [Graph.cell?, ← hid, hg, hk]
    exact Or.inr ⟨_, _, rfl, rfl, h.store.insert hcd, h.root, h.config⟩
  · simp only [Graph.cell?, ← hid, hg, hk, Cell.sameConfig_of_forget hpresent hcd]
    split
    · exact Or.inr ⟨g, k, rfl, rfl, h⟩
    · exact Or.inl ⟨_, rfl, rfl⟩

/-- Taking a cell out is refused in both graphs, for the same reason, or gives cells that differ at most in what was
compiled. -/
theorem remove_cases (h : g.Like k) (id : NodeId) : (∃ e, g.remove id = .error e ∧ k.remove id = .error e) ∨
    ∃ c d g' k', g.remove id = .ok (c, g') ∧ k.remove id = .ok (d, k') ∧ c.forget = d.forget ∧ g'.Like k' := by
  unfold Graph.remove
  rw [h.root]
  split
  · exact Or.inl ⟨_, rfl, rfl⟩
  · rcases h.store.remove?_cases id with ⟨hg, hk⟩ | ⟨c, d, s, t, hg, hk, hcd, hlike⟩
    · rw [hg, hk]
      exact Or.inl ⟨_, rfl, rfl⟩
    · rw [hg, hk]
      exact Or.inr ⟨c, d, _, _, rfl, rfl, hcd, hlike, rfl, h.config⟩

theorem connect (h : g.Like k) (a b : NodeId) : (g.connect a b).Like (k.connect a b) := by
  unfold Graph.connect
  rw [h.canConnect]
  split
  · exact ⟨h.store.link a b, h.root, h.config⟩
  · exact h

theorem disconnect (h : g.Like k) (a b : NodeId) : (g.disconnect a b).Like (k.disconnect a b) :=
  ⟨h.store.unlink a b, h.root, h.config⟩

end Like

/-! ### Cleaning -/

section Sweep

variable {s t : Store} {root id : NodeId} {work removed : List NodeId}

private theorem sweep_of_unknown (hskip : ¬(id == root || !(s.targets id).isEmpty) = true)
    (hnone : s.remove? id = none) : sweep root s (id :: work) removed = sweep root s work removed := by
  rw [sweep, if_neg hskip]
  split
  · rfl
  · rename_i hsome
    exact absurd (hsome.symm.trans hnone) (Option.some_ne_none _)

private theorem sweep_of_removed {c : Cell} (hskip : ¬(id == root || !(s.targets id).isEmpty) = true)
    (hremove : s.remove? id = some (c, t)) : sweep root s (id :: work) removed =
      sweep root t (((s.inputs id).filter fun source => source != root && (t.targets source).isEmpty).reverse ++ work)
        (id :: removed) := by
  rw [sweep, if_neg hskip]
  split
  · rename_i hnone
    exact absurd (hremove.symm.trans hnone) (Option.some_ne_none _)
  · rename_i hsome
    obtain ⟨-, rfl⟩ := Prod.mk.inj (Option.some.inj (hsome.symm.trans hremove))
    rfl

end Sweep

/-- A sweep takes the same cells out of stores that are like each other. -/
theorem like_sweep {s t : Store} (h : s.Like t) (root : NodeId) (work removed : List NodeId) :
    (sweep root s work removed).1 = (sweep root t work removed).1 ∧
      (sweep root s work removed).2.Like (sweep root t work removed).2 := by
  fun_induction sweep root s work removed generalizing t with
  | case1 s removed =>
    rw [sweep]
    exact ⟨rfl, h⟩
  | case2 s removed id work hskip ih =>
    rw [h.targets] at hskip
    rw [sweep, if_pos hskip]
    exact ih h
  | case3 s removed id work hskip hs ih =>
    rw [h.targets] at hskip
    rw [sweep_of_unknown hskip (h.remove?_eq_none hs)]
    exact ih h
  | case4 s removed id work hskip c s' hs hsize found =>
    rename_i ih
    rw [h.targets] at hskip
    obtain ⟨d, t', ht, hlike⟩ := h.exists_remove? hs
    -- what is looked at next depends on inputs and targets only
    have hfound : found = (t.inputs id).filter fun source => source != root && (t'.targets source).isEmpty := by
      simp only [found, h.inputs, hlike.targets]
    rw [sweep_of_removed hskip ht, ← hfound]
    exact ih hlike

theorem Like.clean {g k : Graph} (h : g.Like k) : g.clean.1 = k.clean.1 ∧ g.clean.2.Like k.clean.2 := by
  have hblind : Cell.Blind fun c => c.invalidate.compile := Cell.blind_of_forget fun c => c.invalidate.forget_compile
  obtain ⟨hremoved, hstore⟩ := like_sweep h.store g.root g.orphans.reverse []
  rw [h.orphans, h.root] at hremoved hstore
  unfold Graph.clean
  rw [h.orphans, h.root]
  exact ⟨hremoved, hstore.map hblind, rfl, h.config⟩

/-! ### Compiling and evaluating -/

theorem like_modify (g : Graph) (id : NodeId) {f : Cell → Cell} (hf : ∀ c, (f c).forget = c.forget) :
    (g.modify id f).Like g := ⟨Store.like_modify fun c _ => hf c, rfl, rfl⟩

theorem like_evaluate (g : Graph) : g.evaluate.2.Like g := ⟨Store.like_evaluate g.store g.root, rfl, rfl⟩

theorem like_diagnostics (g : Graph) : g.diagnostics.2.Like g := ⟨Store.like_map_compile g.store, rfl, rfl⟩

/-- Whether a call is made for its answer only: a cell or all of them are compiled, evaluated or reported. -/
def Call.observes : Call → Bool
  | .evaluate | .diagnostics | .trace _ | .onCell _ .compile | .onCell _ (.evaluate _) => true
  | _ => false

/-- A call that is made for its answer changes nothing but what was compiled. -/
theorem Call.like_apply (call : Call) (hobserves : call.observes = true) (g : Graph) : (call.apply g).Like g := by
  cases call with
  | evaluate => exact like_evaluate g
  | diagnostics => exact like_diagnostics g
  | trace id => exact like_evaluate g
  | onCell id call =>
    cases call with
    | compile => exact like_modify g id Cell.forget_compile
    | evaluate l => exact like_modify g id fun c => (congrArg Cell.forget (c.snd_evaluate l)).trans c.forget_compile
    | _ => exact Bool.noConfusion hobserves
  | _ => exact Bool.noConfusion hobserves

/-- Calls that leave a graph like itself keep graphs like each other. -/
theorem Like.of_like {g g' k k' : Graph} (h : g.Like k) (hg : g'.Like g) (hk : k'.Like k) : g'.Like k' :=
  (hg.trans h).trans hk.symm

end CellGraph.Graph
