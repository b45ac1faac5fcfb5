import CellGraph.Proofs.Graph.WellFormed

/-!
# Adding an edge

The test that `Graph.connect` makes goes by an order of all cells with the new edge in it.  In a well-formed graph that
order has all cells exactly if no path leads from the end of the edge back to its source (`acyclic_insert_iff`), so the
test says what a caller expects (`WellFormed.canConnect_iff_accepts`).  An edge that is accepted is added on both sides
and makes its end stale; nothing else changes (`Reachable.connect_exact`).
-/

namespace CellGraph

open Relation (TransGen ReflTransGen)

/-! ### Cycles through a new arc -/

/-- A path that may use an arc from `a` to `b` does not, or it goes to `a` and ends with a path from `b`. -/
private theorem path_insert {α : Type} {r : α → α → Prop} {a b x y : α}
    (h : TransGen (fun x y => r x y ∨ x = a ∧ y = b) x y) :
    TransGen r x y ∨ ReflTransGen r x a ∧ ReflTransGen r b y := by
  induction h with
  | single hstep =>
    rcases hstep with hstep | ⟨rfl, rfl⟩
    · exact Or.inl (.single hstep)
    · exact Or.inr ⟨.refl, .refl⟩
  | tail _ hstep ih =>
    rcases ih with hpath | ⟨hto, hfrom⟩
    · rcases hstep with hstep | ⟨rfl, rfl⟩
      · exact Or.inl (hpath.tail hstep)
      · exact Or.inr ⟨hpath.to_reflTransGen, .refl⟩
    · rcases hstep with hstep | ⟨rfl, rfl⟩
      · exact Or.inr ⟨hto, hfrom.tail hstep⟩
      · exact Or.inr ⟨hto, .refl⟩

/-- An arc closes a cycle exactly if a path leads from its end back to its source. -/
theorem acyclic_insert_iff {α : Type} {r : α → α → Prop} (hr : ∀ c, ¬ TransGen r c c) {a b : α} :
    (∀ c, ¬ TransGen (fun x y => r x y ∨ x = a ∧ y = b) c c) ↔ ¬ ReflTransGen r b a := by
  constructor
  · intro hacyclic hpath
    have harc : TransGen (fun x y => r x y ∨ x = a ∧ y = b) a b := .single (Or.inr ⟨rfl, rfl⟩)
    have hback : ReflTransGen (fun x y => r x y ∨ x = a ∧ y = b) b a := ReflTransGen.mono (fun _ _ => Or.inl) _ _ hpath
    exact hacyclic a (harc.trans_left hback)
  · intro hpath c hcycle
    rcases path_insert hcycle with hcycle | ⟨hto, hfrom⟩
    · exact hr c hcycle
    · exact hpath (hfrom.trans hto)

namespace Graph

variable {g : Graph} {a b : NodeId}

/-- The edges that a graph takes: from a member that is not the root to a member that is no root with an input, if the
edge is new and closes no cycle.  A path can be empty, so no cell feeds itself. -/
structure Accepts (g : Graph) (a b : NodeId) : Prop where
  not_root : a ≠ g.root
  source_mem : a ∈ g.ids
  target_mem : b ∈ g.ids
  root_free : b = g.root → g.inputs g.root = []
  new : b ∉ g.targets a
  no_path : ¬ ReflTransGen (fun x y => y ∈ g.targets x) b a

/-- The test for an edge says whether the graph takes it. -/
theorem WellFormed.canConnect_iff_accepts (hg : g.WellFormed) : g.canConnect a b = true ↔ g.Accepts a b := by
  have hcomplete (ha : a ∈ g.ids) : g.store.isComplete (g.store.sortWith (some (a, b))) = true ↔
      ¬ ReflTransGen (fun x y => y ∈ g.targets x) b a := by
    have hextra : ∀ e ∈ some (a, b), e.1 ∈ g.store.ids := by
      rintro e ⟨⟩
      exact ha
    have harcs : (fun x y => y ∈ g.store.targetsWith (some (a, b)) x) =
        fun x y => y ∈ g.store.targets x ∨ x = a ∧ y = b := by
      funext x y
      rw [Store.targetsWith]
      by_cases hx : x = a
      · simp [hx]
      · simp [hx, Ne.symm hx]
    rw [Store.isComplete_sortWith_iff hextra, harcs]
    exact acyclic_insert_iff hg.store.acyclic
  rw [canConnect_iff]
  constructor
  · rintro ⟨hroot, ha, hb, hfree, hnew, hall⟩
    exact ⟨hroot, ha, hb, hfree, hnew, (hcomplete ha).1 hall⟩
  · intro h
    exact ⟨h.not_root, h.source_mem, h.target_mem, h.root_free, h.new, (hcomplete h.source_mem).2 h.no_path⟩

theorem WellFormed.connect_of_accepts (hg : g.WellFormed) (h : g.Accepts a b) :
    g.connect a b = { g with store := g.store.link a b } := by
  rw [Graph.connect, if_pos (hg.canConnect_iff_accepts.2 h)]

theorem WellFormed.connect_of_not_accepts (hg : g.WellFormed) (h : ¬ g.Accepts a b) : g.connect a b = g := by
  rw [Graph.connect, if_neg fun hcan => h (hg.canConnect_iff_accepts.1 hcan)]

/-- No path leads on from an id that feeds nothing. -/
theorem not_path_of_targets_nil (hsink : g.targets b = []) (hne : b ≠ a) :
    ¬ ReflTransGen (fun x y => y ∈ g.targets x) b a := by
  intro hpath
  rcases hpath.cases_head with heq | ⟨next, hstep, -⟩
  · exact hne heq
  · rw [hsink] at hstep
    exact absurd hstep List.not_mem_nil

/-- Any other member can be made the input of a root that has none. -/
theorem WellFormed.accepts_root (hg : g.WellFormed) (ha : a ∈ g.ids) (hne : a ≠ g.root) (hfree : g.inputs g.root = []) :
    g.Accepts a g.root := by
  refine ⟨hne, ha, hg.root_mem, fun _ => hfree, fun hedge => ?_, fun hpath => ?_⟩
  · have hinput : a ∈ g.inputs g.root := (hg.store.mirror a g.root).1 hedge
    rw [hfree] at hinput
    exact absurd hinput List.not_mem_nil
  · exact not_path_of_targets_nil hg.root_targets hne.symm hpath

/-- What a graph with a new edge shows: the two ends know the edge, and the end that is fed is stale. -/
theorem views_link (ha : a ∈ g.ids) : let h : Graph := { g with store := g.store.link a b }
    (∀ id, h.targets id = if id = a then g.targets id ++ [b] else g.targets id) ∧
      ∀ id, h.cell? id = if id = b then (g.cell? id).map fun c => { c with inputs := c.inputs ++ [a], state := .stale }
        else g.cell? id := by
  refine ⟨fun id => Store.targets_link_of_mem ha b id, fun id => ?_⟩
  rw [cell?, Store.link, Store.cell?_modify, Store.cell?_modifyTargets]
  rfl

/-- An edge is added exactly if the graph takes it.  Then its end comes last among the targets of its source, its source
last among the inputs of its end, and its end is stale; nothing else changes.  Otherwise nothing changes at all. -/
theorem Reachable.connect_exact (hg : g.Reachable) (a b : NodeId) :
    (b ∉ g.targets a ∧ b ∈ (g.connect a b).targets a ↔ g.Accepts a b) ∧
      (g.Accepts a b →
        (g.connect a b).root = g.root ∧ (g.connect a b).config = g.config ∧
        (g.connect a b).store.nextId = g.store.nextId ∧ (g.connect a b).ids = g.ids ∧
        (∀ id, (g.connect a b).targets id = if id = a then g.targets id ++ [b] else g.targets id) ∧
        ∀ id, (g.connect a b).cell? id =
          if id = b then (g.cell? id).map fun c => { c with inputs := c.inputs ++ [a], state := .stale }
          else g.cell? id) ∧
      (¬ g.Accepts a b → g.connect a b = g) := by
  have hwell := hg.wellFormed
  refine ⟨⟨?_, ?_⟩, ?_, hwell.connect_of_not_accepts⟩
  · rintro ⟨hnew, hadded⟩
    by_contra hno
    rw [hwell.connect_of_not_accepts hno] at hadded
    exact hnew hadded
  · intro h
    refine ⟨h.new, ?_⟩
    rw [hwell.connect_of_accepts h, (views_link h.source_mem).1, if_pos rfl]
    exact List.mem_append_right _ (List.mem_singleton_self b)
  · intro h
    obtain ⟨htargets, hcells⟩ := views_link (b := b) h.source_mem
    rw [hwell.connect_of_accepts h]
    exact ⟨rfl, rfl, rfl, Store.ids_link a b, htargets, hcells⟩

/-- A new cell can feed the root, and it cannot feed itself. -/
theorem connect_exact_of_created :
    let g := initial.applyAll [.create "a"]
    g.Reachable ∧ g.Accepts ⟨1⟩ ⟨0⟩ ∧ ⟨0⟩ ∈ (g.connect ⟨1⟩ ⟨0⟩).targets ⟨1⟩ ∧ g.connect ⟨1⟩ ⟨1⟩ = g := by
  intro g
  have hg : g.Reachable := by
    refine (Reachable.new .standard).applyAll ?_
    simp only [List.mem_cons, List.not_mem_nil, or_false]
    rintro call rfl c hc
    nomatch hc
  have hnone : g.targets ⟨0⟩ = [] := by decide
  have hpath : ¬ ReflTransGen (fun x y => y ∈ g.targets x) ⟨0⟩ ⟨1⟩ := by
    intro hpath
    rcases hpath.cases_head with heq | ⟨next, hedge, -⟩
    · exact absurd heq (by decide)
    · rw [hnone] at hedge
      exact absurd hedge List.not_mem_nil
  have haccepts : g.Accepts ⟨1⟩ ⟨0⟩ := ⟨by decide, by decide, by decide, fun _ => by decide, by decide, hpath⟩
  have hself : ¬ g.Accepts ⟨1⟩ ⟨1⟩ := fun h => h.no_path .refl
  exact ⟨hg, haccepts, ((Reachable.connect_exact hg ⟨1⟩ ⟨0⟩).1.2 haccepts).2,
    (Reachable.connect_exact hg ⟨1⟩ ⟨1⟩).2.2 hself⟩

/-! ### A root that is fed by one cell -/

/-- A graph with a cell that was changed by a call and then connected to the root. -/
def feeding (call : Cell.Call) : Graph := (initial.applyAll [.create "a", .onCell ⟨1⟩ call]).connect ⟨1⟩ ⟨0⟩

theorem feeding_eq (call : Cell.Call) :
    let g := initial.applyAll [.create "a", .onCell ⟨1⟩ call]
    feeding call = { g with store := g.store.link ⟨1⟩ ⟨0⟩ } := by
  intro g
  have hg : g.Reachable := (Reachable.new .standard).applyAll (Call.reachable_of_not_adds rfl)
  have hids : g.ids = [⟨0⟩, ⟨1⟩] := rfl
  have hroot : g.root = ⟨0⟩ := rfl
  have haccepts : g.Accepts ⟨1⟩ g.root :=
    hg.wellFormed.accepts_root (by rw [hids]; decide) (by rw [hroot]; decide) rfl
  exact hg.wellFormed.connect_of_accepts haccepts

theorem reachable_feeding (call : Cell.Call) : (feeding call).Reachable :=
  ((Reachable.new .standard).applyAll (Call.reachable_of_not_adds rfl)).call (.connect ⟨1⟩ ⟨0⟩)
    fun _ hadd => nomatch hadd

theorem inputs_feeding (call : Cell.Call) : (feeding call).inputs (feeding call).root = [⟨1⟩] := by
  rw [feeding_eq]
  rfl

theorem mem_inputs_feeding (call : Cell.Call) : ⟨1⟩ ∈ (feeding call).inputs (feeding call).root := by
  rw [inputs_feeding]
  exact List.mem_singleton_self _

theorem cell?_feeding (call : Cell.Call) : (feeding call).cell? ⟨1⟩ = some (call.apply (.bare ⟨1⟩ "a")) := by
  rw [feeding_eq]
  rfl

end Graph

end CellGraph
