import CellGraph.Proofs.Graph.Connect

/-!
# Adding many edges

`Document.connectAll` adds edges one after the other and stops at the first one that is not there afterwards.  It goes
through exactly if the edges as a whole are `Allowed`, whatever their order; an edge that comes twice counts once.  What
it leads to is `Grown`: the targets of each cell are the ends of its edges in the order in which they first come.
-/

namespace CellGraph.Document

open Relation (TransGen ReflTransGen)

/-- The ends of the edges that leave an id, each once, in the order in which they first come. -/
def targetsIn (es : List (NodeId × NodeId)) (id : NodeId) : List NodeId :=
  ((es.filter (·.1 == id)).map (·.2)).eraseDups

theorem mem_targetsIn {es : List (NodeId × NodeId)} {a b : NodeId} : b ∈ targetsIn es a ↔ (a, b) ∈ es := by
  rw [targetsIn, List.mem_eraseDups, List.mem_map]
  constructor
  · rintro ⟨e, he, rfl⟩
    obtain ⟨hmem, hsource⟩ := List.mem_filter.1 he
    rwa [← beq_iff_eq.1 hsource]
  · exact fun he => ⟨(a, b), List.mem_filter.2 ⟨he, beq_self_eq_true a⟩, rfl⟩

theorem targetsIn_concat (es : List (NodeId × NodeId)) (a b id : NodeId) : targetsIn (es ++ [(a, b)]) id =
    if id = a ∧ b ∉ targetsIn es a then targetsIn es id ++ [b] else targetsIn es id := by
  rw [targetsIn, List.filter_append, List.map_append]
  by_cases hid : id = a
  · subst hid
    have hend : ([(id, b)].filter (·.1 == id)).map (·.2) = [b] := by simp
    rw [hend, List.eraseDups_append, ← targetsIn]
    by_cases hb : b ∈ targetsIn es id
    · have hold : b ∈ (es.filter (·.1 == id)).map (·.2) := List.mem_eraseDups.1 hb
      have hdrop : [b].removeAll ((es.filter (·.1 == id)).map (·.2)) = [] := by
        rw [List.removeAll, List.filter_cons_of_neg (by simpa using hold), List.filter_nil]
      rw [if_neg fun h => h.2 hb, hdrop, List.eraseDups_nil, List.append_nil]
    · have hnew : b ∉ (es.filter (·.1 == id)).map (·.2) := fun h => hb (List.mem_eraseDups.2 h)
      have hkeep : [b].removeAll ((es.filter (·.1 == id)).map (·.2)) = [b] := by
        rw [List.removeAll, List.filter_cons_of_pos (by simpa using hnew), List.filter_nil]
      rw [if_pos ⟨rfl, hb⟩, hkeep, List.eraseDups_cons, List.filter_nil, List.eraseDups_nil]
  · have hnone : [(a, b)].filter (·.1 == id) = [] := by simp [Ne.symm hid]
    rw [if_neg fun h => hid h.1, hnone, List.map_nil, List.append_nil, ← targetsIn]

/-- Edges between members that a graph with a given root can have all together. -/
structure Allowed (root : NodeId) (ids : List NodeId) (es : List (NodeId × NodeId)) : Prop where
  not_root : ∀ e ∈ es, e.1 ≠ root
  mem : ∀ e ∈ es, e.1 ∈ ids ∧ e.2 ∈ ids
  root_once : ∀ a b, (a, root) ∈ es → (b, root) ∈ es → a = b
  acyclic : ∀ c, ¬ TransGen (fun a b => (a, b) ∈ es) c c

theorem Allowed.subset {root : NodeId} {ids : List NodeId} {es fs : List (NodeId × NodeId)} (h : Allowed root ids fs)
    (hsub : es ⊆ fs) : Allowed root ids es where
  not_root e he := h.not_root e (hsub he)
  mem e he := h.mem e (hsub he)
  root_once a b ha hb := h.root_once a b (hsub ha) (hsub hb)
  acyclic c hcycle := h.acyclic c (TransGen.mono (fun _ _ he => hsub he) _ _ hcycle)

/-- A graph that came from another one by adding edges: it has them and no others, and its cells differ in nothing but
their inputs and are stale. -/
structure Grown (g : Graph) (es : List (NodeId × NodeId)) (h : Graph) : Prop where
  wellFormed : h.WellFormed
  root : h.root = g.root
  config : h.config = g.config
  ids : h.ids = g.ids
  nextId : h.store.nextId = g.store.nextId
  targets : ∀ id, h.targets id = targetsIn es id
  cell : ∀ id, h.cell? id = (g.cell? id).map fun c => c.setInputs (h.inputs id)

namespace Grown

variable {g h : Graph} {es : List (NodeId × NodeId)} {a b : NodeId}

theorem mem_targets (hh : Grown g es h) : b ∈ h.targets a ↔ (a, b) ∈ es := by rw [hh.targets, mem_targetsIn]

theorem mem_inputs (hh : Grown g es h) : a ∈ h.inputs b ↔ (a, b) ∈ es := by
  rw [← hh.mem_targets]
  exact (hh.wellFormed.store.mirror a b).symm

theorem allowed (hh : Grown g es h) : Allowed g.root g.ids es := by
  have hwell := hh.wellFormed
  have hmem : ∀ {a b}, (a, b) ∈ es → b ∈ h.targets a := hh.mem_targets.2
  refine ⟨?_, ?_, ?_, ?_⟩
  · rintro ⟨a, b⟩ he rfl
    have hroot := hmem he
    rw [← hh.root, hwell.root_targets] at hroot
    exact absurd hroot List.not_mem_nil
  · rintro ⟨a, b⟩ he
    rw [← hh.ids]
    exact hwell.store.mem_ids_of_edge (hmem he)
  · intro a b ha hb
    rw [← hh.root] at ha hb
    have hroot := hwell.root_inputs
    rcases hinputs : h.inputs h.root with _ | ⟨c, _ | ⟨d, cs⟩⟩
    · exact absurd (hh.mem_inputs.2 ha) (by simp [hinputs])
    · have hac := hh.mem_inputs.2 ha
      have hbc := hh.mem_inputs.2 hb
      rw [hinputs, List.mem_singleton] at hac hbc
      rw [hac, hbc]
    · rw [hinputs] at hroot
      simp at hroot
  · intro c hcycle
    exact hwell.store.acyclic c (TransGen.mono (fun _ _ => hmem) _ _ hcycle)

/-- An edge that is there leaves the graph as it is, also in the list of edges. -/
theorem old (hh : Grown g es h) (hb : b ∈ h.targets a) : Grown g (es ++ [(a, b)]) (h.connect a b) := by
  have hsame : h.connect a b = h := hh.wellFormed.connect_of_not_accepts fun haccepts => haccepts.new hb
  rw [hsame]
  refine { hh with targets := fun id => ?_ }
  rw [targetsIn_concat, if_neg fun hnew => hnew.2 (by rwa [← hh.targets]), hh.targets]

theorem new (hh : Grown g es h) (haccepts : h.Accepts a b) : Grown g (es ++ [(a, b)]) (h.connect a b) := by
  have hwell := hh.wellFormed.connect a b
  obtain ⟨htargets, hcells⟩ := Graph.views_link (b := b) haccepts.source_mem
  rw [hh.wellFormed.connect_of_accepts haccepts] at hwell ⊢
  refine ⟨hwell, hh.root, hh.config, (Store.ids_link a b).trans hh.ids, hh.nextId, fun id => ?_, fun id => ?_⟩
  · rw [htargets, targetsIn_concat, ← hh.targets, ← hh.targets]
    by_cases hid : id = a
    · rw [if_pos hid, if_pos ⟨hid, haccepts.new⟩]
    · rw [if_neg hid, if_neg fun h => hid h.1]
  · have hinputs : ({ h with store := h.store.link a b } : Graph).inputs id =
        if id = b then h.inputs id ++ [a] else h.inputs id := Store.inputs_link_of_mem haccepts.target_mem a id
    rw [hcells, hinputs, hh.cell]
    by_cases hid : id = b
    · rw [if_pos hid, if_pos hid, Option.map_map]
      rfl
    · rw [if_neg hid, if_neg hid]

/-- The next edge is there after it was added exactly if it is allowed beside those before. -/
theorem isConnected_iff (hh : Grown g es h) :
    (h.connect a b).isConnected a b = true ↔ Allowed g.root g.ids (es ++ [(a, b)]) := by
  rw [Graph.isConnected, Store.hasEdge_iff]
  by_cases hb : b ∈ h.targets a
  · have hold := hh.old hb
    exact ⟨fun _ => hold.allowed, fun _ => hold.mem_targets.2 (List.mem_append_right _ (List.mem_singleton_self _))⟩
  · constructor
    · intro hadded
      by_cases haccepts : h.Accepts a b
      · exact (hh.new haccepts).allowed
      · rw [hh.wellFormed.connect_of_not_accepts haccepts] at hadded
        exact absurd hadded hb
    · intro hall
      have hedge : (a, b) ∈ es ++ [(a, b)] := List.mem_append_right _ (List.mem_singleton_self _)
      have hold : ∀ {x y}, y ∈ h.targets x → (x, y) ∈ es ++ [(a, b)] :=
        fun hxy => List.mem_append_left _ (hh.mem_targets.1 hxy)
      have hfree : b = h.root → h.inputs h.root = [] := by
        intro hroot
        rw [List.eq_nil_iff_forall_not_mem]
        intro x hx
        -- the root would have two inputs
        have hxa : x = a := by
          refine hall.root_once x a (List.mem_append_left _ ?_) ?_
          · rw [← hh.root]
            exact hh.mem_inputs.1 hx
          · rwa [← hh.root, ← hroot]
        exact hb (hh.mem_targets.2 (hxa ▸ hroot ▸ hh.mem_inputs.1 hx))
      have hpath : ¬ ReflTransGen (fun x y => y ∈ h.targets x) b a := by
        intro hpath
        have hback : ReflTransGen (fun x y => (x, y) ∈ es ++ [(a, b)]) b a :=
          ReflTransGen.mono (fun _ _ => hold) _ _ hpath
        exact hall.acyclic a ((TransGen.single hedge).trans_left hback)
      have hmem := hall.mem _ hedge
      rw [← hh.ids] at hmem
      have haccepts : h.Accepts a b := ⟨hh.root ▸ hall.not_root _ hedge, hmem.1, hmem.2, hfree, hb, hpath⟩
      exact (hh.new haccepts).mem_targets.2 hedge

theorem connect (hh : Grown g es h) (hadded : (h.connect a b).isConnected a b = true) :
    Grown g (es ++ [(a, b)]) (h.connect a b) := by
  by_cases hb : b ∈ h.targets a
  · exact hh.old hb
  · by_cases haccepts : h.Accepts a b
    · exact hh.new haccepts
    · rw [hh.wellFormed.connect_of_not_accepts haccepts, Graph.isConnected, Store.hasEdge_iff] at hadded
      exact absurd hadded hb

/-- Edges are added one after the other exactly if all of them together are allowed. -/
theorem connectAll (hh : Grown g es h) (fs : List (NodeId × NodeId)) :
    ((∃ k, Document.connectAll fs h = .ok k) ↔ Allowed g.root g.ids (es ++ fs)) ∧
      ∀ k, Document.connectAll fs h = .ok k → Grown g (es ++ fs) k := by
  induction fs generalizing es h with
  | nil =>
    rw [List.append_nil]
    refine ⟨⟨fun _ => hh.allowed, fun _ => ⟨h, rfl⟩⟩, ?_⟩
    rintro k ⟨⟩
    exact hh
  | cons e fs ih =>
    obtain ⟨a, b⟩ := e
    have hsplit : es ++ (a, b) :: fs = (es ++ [(a, b)]) ++ fs := (List.append_assoc es [(a, b)] fs).symm
    rw [Document.connectAll, hsplit]
    by_cases hadded : (h.connect a b).isConnected a b = true
    · rw [if_pos hadded]
      exact ih (hh.connect hadded)
    · rw [if_neg hadded]
      have hno : ¬ Allowed g.root g.ids ((es ++ [(a, b)]) ++ fs) :=
        fun hall => hadded (hh.isConnected_iff.2 (hall.subset (List.subset_append_left _ _)))
      simp only [reduceCtorEq, exists_false, hno, false_implies, implies_true, and_self]

end Grown

end CellGraph.Document
