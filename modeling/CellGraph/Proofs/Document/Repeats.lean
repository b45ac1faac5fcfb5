import CellGraph.Proofs.Document.RoundTrip

/-!
# The edges of a restored graph

Restoring offers the edges of a document to `Graph.connect` one after the other and looks afterwards whether each is
there.  One that came before is there although it is refused.  Every other one has to be taken (`Grown.accepts_iff`), so
the graph has the entries of the document without the repeats in each (`Describes.edges_document`), and a document with
a repeat is restored to a graph with another document (`restore_edges_of_repeated`).
-/

namespace CellGraph

open Relation (TransGen)

namespace Document

variable {d : Document} {config : Config} {h : Graph}

/-- Of edges that are allowed all together, a graph that has the earlier ones takes the next one exactly if it is
new. -/
theorem Grown.accepts_iff {g h : Graph} {before after : List (NodeId × NodeId)} {a b : NodeId}
    (hh : Grown g before h) (hall : Allowed g.root g.ids (before ++ (a, b) :: after)) :
    h.Accepts a b ↔ (a, b) ∉ before := by
  constructor
  · exact fun haccepts hold => haccepts.new (hh.mem_targets.2 hold)
  · intro hnew
    have hsplit : before ++ (a, b) :: after = (before ++ [(a, b)]) ++ after :=
      (List.append_assoc before [(a, b)] after).symm
    rw [hsplit] at hall
    have hconnected := hh.isConnected_iff.2 (hall.subset (List.subset_append_left _ _))
    rw [Graph.isConnected, Store.hasEdge_iff] at hconnected
    -- an edge that is refused is there afterwards only if it was there before
    by_contra hno
    rw [hh.wellFormed.connect_of_not_accepts hno] at hconnected
    exact hnew (hh.mem_targets.1 hconnected)

/-- While a document is restored, an edge is refused exactly if it came before. -/
theorem accepts_iff_of_toGraph (hgraph : d.toGraph config = .ok h) :
    ∃ rs : List Record, rs.Perm d.nodes ∧ rs.map (·.id) = d.edges.map (·.1) ∧
      ∀ before a b after, d.edgeList = before ++ (a, b) :: after →
        ∃ k, connectAll before (bareGraph config h.root rs) = .ok k ∧ (k.Accepts a b ↔ (a, b) ∉ before) := by
  obtain ⟨root, ts, edges, rs, g, hedges, hnodup, hids, hperm, hconnect, -, rfl⟩ := toGraph_eq_ok_iff.1 hgraph
  have hnodup' : (rs.map (·.id)).Nodup := (hperm.map (·.id)).nodup_iff.2 hnodup
  have hfirst : (rs.map (·.id)).head? = some root := by rw [hids, hedges, List.map_cons, List.head?_cons]
  have hbare : Grown (bareGraph config root rs) [] (bareGraph config root rs) := grown_bareGraph hnodup' hfirst
  have hall : Allowed (bareGraph config root rs).root (bareGraph config root rs).ids d.edgeList :=
    (hbare.connectAll d.edgeList).1.1 ⟨g, hconnect⟩
  have hroot : (setInputs rs g).root = root :=
    (views_setInputs rs g).1.trans ((hbare.connectAll d.edgeList).2 g hconnect).root
  refine ⟨rs, hperm, hids, ?_⟩
  intro before a b after hsplit
  rw [hsplit] at hall
  rw [hroot]
  obtain ⟨k, hk⟩ := (hbare.connectAll before).1.2 (hall.subset (List.subset_append_left _ _))
  exact ⟨k, hk, ((hbare.connectAll before).2 k hk).accepts_iff hall⟩

/-- The document of a graph that another document describes has its entries, each without repeats. -/
theorem Describes.edges_document (hh : d.Describes config h) :
    h.document.edges = d.edges.map fun e => (e.1, e.2.eraseDups) := by
  show h.ids.map (fun id => (id, h.targets id)) = _
  rw [hh.ids, List.map_map]
  apply List.map_congr_left
  intro e he
  rw [Function.comp_apply, hh.targets e he]

/-- No repeat is lost exactly if there is none. -/
theorem Describes.edges_document_eq_iff (hh : d.Describes config h) (hwell : h.WellFormed) :
    h.document.edges = d.edges ↔ ∀ e ∈ d.edges, e.2.Nodup := by
  have hself : h.document.edges = d.edges ↔ ∀ e ∈ d.edges, (e.1, e.2.eraseDups) = e := by
    rw [hh.edges_document, ← List.map_inj_left, List.map_id']
  rw [hself]
  refine forall₂_congr fun e he => ?_
  constructor
  · intro hsame
    have htargets : e.2.eraseDups = e.2 := congrArg Prod.snd hsame
    rw [← htargets, ← hh.targets e he]
    exact hwell.store.nodup_targets e.1
  · intro hnodup
    rw [Graph.eraseDups_of_nodup hnodup]

end Document

namespace Graph

/-- A graph that is restored from a document has its entries without the repeats in each, so it has them all exactly if
there is no repeat.  While it is restored, every edge that did not come before is accepted: one that is refused for any
other reason makes the document be rejected. -/
theorem restore_edges {g h : Graph} {d : Document} (hrestore : g.restore d = .ok h) :
    h.document.edges = d.edges.map (fun e => (e.1, e.2.eraseDups)) ∧
      (h.document.edges = d.edges ↔ ∀ e ∈ d.edges, e.2.Nodup) ∧
      ∃ rs : List Record, rs.Perm d.nodes ∧ rs.map (·.id) = d.edges.map (·.1) ∧
        ∀ before a b after, d.edgeList = before ++ (a, b) :: after →
          ∃ k, Document.connectAll before (Document.bareGraph g.config h.root rs) = .ok k ∧
            (k.Accepts a b ↔ (a, b) ∉ before) := by
  have hgraph : d.toGraph g.config = .ok h := (g.restore_eq d).symm.trans hrestore
  have hdescribes := Document.describes_of_toGraph hgraph
  exact ⟨hdescribes.edges_document, hdescribes.edges_document_eq_iff (wellFormed_toGraph hgraph),
    Document.accepts_iff_of_toGraph hgraph⟩

/-- A constant that feeds the root, with its edge listed twice. -/
def repeated : Document where
  edges := [(⟨0⟩, []), (⟨1⟩, [⟨0⟩, ⟨0⟩])]
  nodes := [⟨⟨1⟩, "a", some (.number 2), [], .empty, none, none⟩,
    ⟨⟨0⟩, "root", some (.expression "$1"), [⟨1⟩], .empty, none, none⟩]

private theorem valid_repeated : repeated.Valid := by
  have hfeeds : ∀ x y, repeated.Feeds x y ↔ x = ⟨1⟩ ∧ y = ⟨0⟩ := by
    intro x y
    simp only [Document.Feeds, repeated, List.mem_cons, List.not_mem_nil, or_false, or_self, exists_eq_or_imp,
      and_false, false_or, exists_eq_left]
    exact and_congr_left' eq_comm
  refine ⟨by decide, by decide, fun id => ?_, ?_, ⟨⟨0⟩, _, rfl, ?_⟩, ?_, ?_⟩
  · simp [repeated, or_comm]
  · intro x y hxy
    rw [((hfeeds x y).1 hxy).2]
    decide
  · exact fun x y hx hy => ((hfeeds x _).1 hx).1.trans ((hfeeds y _).1 hy).1.symm
  · intro c hcycle
    obtain ⟨y, hcy, -⟩ := TransGen.head'_iff.1 hcycle
    obtain ⟨x, -, hxc⟩ := TransGen.tail'_iff.1 hcycle
    exact absurd (((hfeeds c y).1 hcy).1.symm.trans ((hfeeds x c).1 hxc).2) (by decide)
  · intro r hr
    simp only [hfeeds]
    rcases List.mem_cons.1 hr with rfl | hr
    · simp
    · rw [List.mem_singleton.1 hr]
      simp

/-- The repeat is not in the document of the restored graph. -/
theorem restore_edges_of_valid :
    ∃ h, initial.restore repeated = .ok h ∧ h.document.edges = [(⟨0⟩, []), (⟨1⟩, [⟨0⟩])] := by
  obtain ⟨h, hgraph⟩ := valid_repeated.toGraph initial.config
  have hrestore : initial.restore repeated = .ok h := (restore_eq _ _).trans hgraph
  exact ⟨h, hrestore, (restore_edges hrestore).1.trans (by decide)⟩

/-- A document with a repeat is restored, and the graph that comes out has another document. -/
theorem restore_edges_of_repeated : ∃ h, initial.restore repeated = .ok h ∧ h.document.edges ≠ repeated.edges := by
  obtain ⟨h, hgraph⟩ := valid_repeated.toGraph initial.config
  refine ⟨h, (restore_eq _ _).trans hgraph, ?_⟩
  rw [(Document.describes_of_toGraph hgraph).edges_document]
  decide

end Graph

end CellGraph
