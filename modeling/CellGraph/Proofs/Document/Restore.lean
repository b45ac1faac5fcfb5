import CellGraph.Proofs.Document.Build
import CellGraph.Proofs.Graph.Reachable
import Mathlib.Data.List.Perm.Basic

/-!
# Restoring a graph

A document is restored exactly if it is `Valid`, and then the graph is the one it `Describes`: nothing of the graph that
was there before is left but its options.  A document that is refused, and a text or a stream that tells no valid
document, changes nothing.
-/

namespace CellGraph

open Relation (TransGen)

namespace Document

variable {d : Document} {a b : NodeId}

/-- Whether an entry of the edges says that one id feeds another. -/
def Feeds (d : Document) (a b : NodeId) : Prop := ∃ e ∈ d.edges, e.1 = a ∧ b ∈ e.2

theorem mem_edgeList : (a, b) ∈ d.edgeList ↔ d.Feeds a b := by
  rw [edgeList, List.mem_flatMap]
  constructor
  · rintro ⟨e, he, hmem⟩
    obtain ⟨target, htarget, heq⟩ := List.mem_map.1 hmem
    obtain ⟨rfl, rfl⟩ := Prod.mk.inj heq
    exact ⟨e, he, rfl, htarget⟩
  · rintro ⟨e, he, rfl, hb⟩
    exact ⟨e, he, List.mem_map_of_mem hb⟩

/-- What a document has to be in order to describe a graph.  A target that comes twice in one entry counts once. -/
structure Valid (d : Document) : Prop where
  nodup_records : (d.nodes.map (·.id)).Nodup
  nodup_ids : (d.edges.map (·.1)).Nodup
  same_ids : ∀ id, id ∈ d.edges.map (·.1) ↔ id ∈ d.nodes.map (·.id)
  target_listed : ∀ a b, d.Feeds a b → b ∈ d.edges.map (·.1)
  /-- The first entry is that of the root, which feeds nothing and is fed by one id at most. -/
  root : ∃ root rest, d.edges = (root, []) :: rest ∧ ∀ a b, d.Feeds a root → d.Feeds b root → a = b
  acyclic : ∀ id, ¬ TransGen d.Feeds id id
  inputs : ∀ r ∈ d.nodes, r.inputs.Nodup ∧ ∀ id, id ∈ r.inputs ↔ d.Feeds id r.id

/-- All that there is to a graph that a document describes. -/
structure Describes (d : Document) (config : Config) (h : Graph) : Prop where
  config : h.config = config
  ids : h.ids = d.edges.map (·.1)
  root : h.ids.head? = some h.root
  targets : ∀ e ∈ d.edges, h.targets e.1 = e.2.eraseDups
  cell : ∀ r ∈ d.nodes, h.cell? r.id = some (r.toCell.setInputs r.inputs)
  nextId : h.store.nextId = (h.ids.map fun id => id.val.toNat + 1).foldl max 0

/-! ### Edges of a document -/

/-- The ends of the edges that leave an id are those in its entry. -/
private theorem targetsIn_flatMap {es : List (NodeId × List NodeId)} (h : (es.map (·.1)).Nodup)
    {e : NodeId × List NodeId} (he : e ∈ es) :
    ((es.flatMap fun e => e.2.map fun t => (e.1, t)).filter (·.1 == e.1)).map (·.2) = e.2 := by
  have hown : ∀ (f : NodeId × List NodeId), ((f.2.map fun t => (f.1, t)).filter (·.1 == f.1)).map (·.2) = f.2 := by
    intro f
    rw [List.filter_eq_self.2 (by simp), List.map_map]
    exact List.map_id _
  have hother : ∀ (fs : List (NodeId × List NodeId)) (id : NodeId), id ∉ fs.map (·.1) →
      (fs.flatMap fun f => f.2.map fun t => (f.1, t)).filter (·.1 == id) = [] := by
    intro fs id hid
    rw [List.filter_eq_nil_iff]
    intro p hp
    obtain ⟨f, hf, hmem⟩ := List.mem_flatMap.1 hp
    obtain ⟨t, -, rfl⟩ := List.mem_map.1 hmem
    have hne : f.1 ≠ id := fun heq => hid (heq ▸ List.mem_map_of_mem hf)
    simpa using hne
  induction es with
  | nil => exact absurd he List.not_mem_nil
  | cons f es ih =>
    rw [List.map_cons, List.nodup_cons] at h
    rw [List.flatMap_cons, List.filter_append, List.map_append]
    rcases List.mem_cons.1 he with rfl | he
    · rw [hown, hother es e.1 h.1, List.map_nil, List.append_nil]
    · have hne : f.1 ≠ e.1 := fun heq => h.1 (heq ▸ List.mem_map_of_mem he)
      have hfirst : (f.2.map fun t => (f.1, t)).filter (·.1 == e.1) = [] := by
        rw [List.filter_eq_nil_iff]
        intro p hp
        obtain ⟨t, -, rfl⟩ := List.mem_map.1 hp
        simpa using hne
      rw [hfirst, List.map_nil, List.nil_append, ih h.2 he]

theorem targetsIn_edgeList (h : (d.edges.map (·.1)).Nodup) {e : NodeId × List NodeId} (he : e ∈ d.edges) :
    targetsIn d.edgeList e.1 = e.2.eraseDups := congrArg List.eraseDups (targetsIn_flatMap h he)

theorem Valid.allowed (h : d.Valid) {root : NodeId} {rest : List (NodeId × List NodeId)}
    (hedges : d.edges = (root, []) :: rest) : Allowed root (d.edges.map (·.1)) d.edgeList := by
  obtain ⟨root', rest', hedges', honce⟩ := h.root
  obtain ⟨heq, rfl⟩ := List.cons.inj (hedges.symm.trans hedges')
  obtain rfl : root = root' := congrArg Prod.fst heq
  refine ⟨?_, ?_, ?_, ?_⟩
  · rintro ⟨a, b⟩ hab rfl
    obtain ⟨e, he, heq, hb⟩ := mem_edgeList.1 hab
    -- the entry of the root has no targets, and there is no other one of its id
    have hroot : e = (a, []) := by
      refine List.inj_on_of_nodup_map h.nodup_ids he ?_ heq
      rw [hedges]
      exact List.mem_cons_self ..
    rw [hroot] at hb
    exact List.not_mem_nil hb
  · rintro ⟨a, b⟩ hab
    have hfeeds := mem_edgeList.1 hab
    refine ⟨?_, h.target_listed a b hfeeds⟩
    obtain ⟨e, he, rfl, -⟩ := hfeeds
    exact List.mem_map_of_mem he
  · exact fun a b ha hb => honce a b (mem_edgeList.1 ha) (mem_edgeList.1 hb)
  · intro c hcycle
    exact h.acyclic c (TransGen.mono (fun _ _ => mem_edgeList.1) _ _ hcycle)

/-! ### Restoring exactly the valid documents -/

/-- The records of a document in the order of its ids, its cells without edges, and its cells with all edges. -/
private theorem stages {config : Config} {h : Graph} (hgraph : d.toGraph config = .ok h) :
    ∃ root ts edges rs g, d.edges = (root, ts) :: edges ∧ (d.nodes.map (·.id)).Nodup ∧
      rs.map (·.id) = d.edges.map (·.1) ∧ rs.Perm d.nodes ∧ Allowed root (d.edges.map (·.1)) d.edgeList ∧
      Grown (bareGraph config root rs) d.edgeList g ∧ (∀ r ∈ rs, r.inputs.Perm (g.inputs r.id)) ∧
      h = setInputs rs g := by
  obtain ⟨root, ts, edges, rs, g, hedges, hnodup, hids, hperm, hconnect, hinputs, rfl⟩ := toGraph_eq_ok_iff.1 hgraph
  have hnodup' : (rs.map (·.id)).Nodup := (hperm.map (·.id)).nodup_iff.2 hnodup
  have hfirst : (rs.map (·.id)).head? = some root := by rw [hids, hedges, List.map_cons, List.head?_cons]
  have hbare : Grown (bareGraph config root rs) [] (bareGraph config root rs) := grown_bareGraph hnodup' hfirst
  have hgrown : Grown (bareGraph config root rs) d.edgeList g := (hbare.connectAll d.edgeList).2 g hconnect
  have hmembers : (bareGraph config root rs).ids = d.edges.map (·.1) := (ids_insertAll (s := .empty) hnodup').trans hids
  exact ⟨root, ts, edges, rs, g, hedges, hnodup, hids, hperm, hmembers ▸ hgrown.allowed, hgrown, hinputs, rfl⟩

theorem valid_of_toGraph {config : Config} {h : Graph} (hgraph : d.toGraph config = .ok h) : d.Valid := by
  obtain ⟨root, ts, edges, rs, g, hedges, hnodup, hids, hperm, hallowed, hgrown, hinputs, -⟩ := stages hgraph
  have hpermIds := hperm.map (·.id)
  rw [hids] at hpermIds
  refine ⟨hnodup, hpermIds.nodup_iff.2 hnodup, fun id => hpermIds.mem_iff, ?_, ?_, ?_, ?_⟩
  · exact fun a b hab => (hallowed.mem _ (mem_edgeList.2 hab)).2
  · have hnone : ts = [] := by
      rw [List.eq_nil_iff_forall_not_mem]
      intro t ht
      have hroot : (root, ts) ∈ d.edges := hedges ▸ List.mem_cons_self ..
      exact hallowed.not_root _ (mem_edgeList.2 ⟨_, hroot, rfl, ht⟩) rfl
    refine ⟨root, edges, hnone ▸ hedges, fun a b ha hb => ?_⟩
    exact hallowed.root_once a b (mem_edgeList.2 ha) (mem_edgeList.2 hb)
  · intro c hcycle
    exact hallowed.acyclic c (TransGen.mono (fun _ _ => mem_edgeList.2) _ _ hcycle)
  · intro r hr
    have hsame := hinputs r (hperm.mem_iff.2 hr)
    refine ⟨hsame.nodup_iff.2 (hgrown.wellFormed.store.nodup_inputs r.id), fun id => ?_⟩
    rw [hsame.mem_iff, hgrown.mem_inputs, mem_edgeList]

theorem describes_of_toGraph {config : Config} {h : Graph} (hgraph : d.toGraph config = .ok h) :
    d.Describes config h := by
  have hwell : h.WellFormed := Graph.wellFormed_toGraph hgraph
  have hvalid : d.Valid := valid_of_toGraph hgraph
  obtain ⟨root, ts, edges, rs, g, hedges, hnodup, hids, hperm, hallowed, hgrown, hinputs, rfl⟩ := stages hgraph
  have hnodup' : (rs.map (·.id)).Nodup := (hperm.map (·.id)).nodup_iff.2 hnodup
  have hbare : (bareGraph config root rs).ids = rs.map (·.id) := ids_insertAll (s := .empty) hnodup'
  obtain ⟨hroot, hconfig, hnext, hmembers, htargets⟩ := views_setInputs rs g
  have hmembers' : (setInputs rs g).ids = rs.map (·.id) := by rw [hmembers, hgrown.ids, hbare]
  refine ⟨hconfig.trans hgrown.config, hmembers'.trans hids, hwell.root_first, ?_, ?_, ?_⟩
  · intro e he
    rw [htargets, hgrown.targets, targetsIn_edgeList hvalid.nodup_ids he]
  · intro r hr
    have hcell : (bareGraph config root rs).cell? r.id = some r.toCell := cell?_insertAll hnodup' (hperm.mem_iff.2 hr) _
    rw [cell?_setInputs hnodup' (hperm.mem_iff.2 hr), hgrown.cell, hcell]
    rfl
  · have hstart : (bareGraph config root rs).store.nextId = (rs.map fun r => r.id.val.toNat + 1).foldl max 0 :=
      nextId_insertAll rs .empty
    rw [hnext, hgrown.nextId, hstart, hmembers', List.map_map]
    rfl

theorem Valid.toGraph (h : d.Valid) (config : Config) : ∃ g, d.toGraph config = .ok g := by
  obtain ⟨root, rest, hedges, -⟩ := h.root
  -- the records in the order of the ids
  have hpermIds : (d.edges.map (·.1)).Perm (d.nodes.map (·.id)) :=
    (List.perm_ext_iff_of_nodup h.nodup_ids h.nodup_records).2 h.same_ids
  obtain ⟨rs, hids, hperm⟩ : ∃ rs : List Record, d.edges.map (·.1) = rs.map (·.id) ∧ rs.Perm d.nodes :=
    (congrFun₂ (List.eq_map_comp_perm Record.id) _ _).mpr hpermIds
  replace hids := hids.symm
  have hnodup : (rs.map (·.id)).Nodup := hids ▸ h.nodup_ids
  have hfirst : (rs.map (·.id)).head? = some root := by rw [hids, hedges, List.map_cons, List.head?_cons]
  have hbare : Grown (bareGraph config root rs) [] (bareGraph config root rs) := grown_bareGraph hnodup hfirst
  have hmembers : (bareGraph config root rs).ids = d.edges.map (·.1) := (ids_insertAll (s := .empty) hnodup).trans hids
  have hall : Allowed (bareGraph config root rs).root (bareGraph config root rs).ids d.edgeList :=
    hmembers ▸ h.allowed hedges
  obtain ⟨g, hconnect⟩ := (hbare.connectAll d.edgeList).1.2 hall
  have hgrown : Grown (bareGraph config root rs) d.edgeList g := (hbare.connectAll d.edgeList).2 g hconnect
  have hinputs : ∀ r ∈ rs, r.inputs.Perm (g.inputs r.id) := by
    intro r hr
    obtain ⟨hone, hmem⟩ := h.inputs r (hperm.mem_iff.1 hr)
    refine (List.perm_ext_iff_of_nodup hone (hgrown.wellFormed.store.nodup_inputs r.id)).2 fun id => ?_
    rw [hmem, ← mem_edgeList, ← hgrown.mem_inputs, Graph.inputs]
  exact ⟨setInputs rs g, toGraph_eq_ok_iff.2
    ⟨root, [], rest, rs, g, hedges, h.nodup_records, hids, hperm, hconnect, hinputs, rfl⟩⟩

theorem toGraph_eq_ok_iff_valid {config : Config} : (∃ h, d.toGraph config = .ok h) ↔ d.Valid :=
  ⟨fun ⟨_, hgraph⟩ => valid_of_toGraph hgraph, fun h => h.toGraph config⟩

/-- A valid document describes one graph. -/
theorem Valid.describes_unique (hd : d.Valid) {config : Config} {g h : Graph} (hg : d.Describes config g)
    (hh : d.Describes config h) : g = h := by
  have hids : g.ids = h.ids := hg.ids.trans hh.ids.symm
  have hroot : g.root = h.root := by
    have hfirst := hg.root
    rw [hids, hh.root] at hfirst
    exact (Option.some.inj hfirst).symm
  have hcells : ∀ id ∈ g.ids, g.cell? id = h.cell? id := by
    intro id hid
    obtain ⟨r, hr, rfl⟩ := List.mem_map.1 ((hd.same_ids id).1 (hg.ids ▸ hid))
    exact (hg.cell r hr).trans (hh.cell r hr).symm
  have htargets : ∀ id ∈ g.ids, g.targets id = h.targets id := by
    intro id hid
    have hlisted : id ∈ d.edges.map (·.1) := by rwa [← hg.ids]
    obtain ⟨e, he, rfl⟩ := List.mem_map.1 hlisted
    exact (hg.targets e he).trans (hh.targets e he).symm
  have hnext : g.store.nextId = h.store.nextId := by rw [hg.nextId, hh.nextId, hids]
  have hstore : g.store = h.store := Store.ext_views hids hcells htargets hnext
  have hconfig : g.config = h.config := hg.config.trans hh.config.symm
  obtain ⟨store, root, config⟩ := g
  obtain ⟨store', root', config'⟩ := h
  obtain rfl : store = store' := hstore
  obtain rfl : root = root' := hroot
  obtain rfl : config = config' := hconfig
  rfl

theorem toGraph_eq_ok_iff_describes {config : Config} {h : Graph} :
    d.toGraph config = .ok h ↔ d.Valid ∧ d.Describes config h := by
  constructor
  · exact fun hgraph => ⟨valid_of_toGraph hgraph, describes_of_toGraph hgraph⟩
  · rintro ⟨hvalid, hdescribes⟩
    obtain ⟨g, hgraph⟩ := hvalid.toGraph config
    rw [hgraph, hvalid.describes_unique (describes_of_toGraph hgraph) hdescribes]

end Document

namespace Graph

/-- A document is restored exactly if it is valid, to the graph that it describes with the options of the present one.
A text is read exactly if it tells a valid document, and bytes exactly if they are such a text.  Whatever fails changes
nothing. -/
theorem restore_exact (g : Graph) :
    (∀ d : Document, ((∃ h, g.restore d = .ok h) ↔ d.Valid) ∧
      (∀ h, g.restore d = .ok h ↔ d.Valid ∧ d.Describes g.config h) ∧
      ∀ e, g.restore d = .error e → (Call.restore d).apply g = g) ∧
    (∀ text : String, ((∃ h, g.read text = .ok h) ↔ ∃ d, Document.ofText? text = some d ∧ d.Valid) ∧
      ∀ e, g.read text = .error e → (Call.read text).apply g = g) ∧
    ∀ bytes : ByteArray, ((∃ h, g.readBytes bytes = .ok h) ↔
        ∃ text d, String.fromUTF8? bytes = some text ∧ Document.ofText? text = some d ∧ d.Valid) ∧
      ∀ e, g.readBytes bytes = .error e → (Call.readBytes bytes).apply g = g := by
  have hfailed : ∀ {ε : Type} {r : Except ε Graph} {e : ε}, r = .error e → g.orSelf r = g := by
    rintro ε r e rfl
    rfl
  have hrestored : ∀ d : Document, (∃ h, g.restore d = .ok h) ↔ d.Valid := by
    intro d
    rw [restore_eq]
    exact Document.toGraph_eq_ok_iff_valid
  have htext : ∀ text, (∃ h, g.read text = .ok h) ↔ ∃ d, Document.ofText? text = some d ∧ d.Valid := by
    intro text
    simp only [read_eq_ok_iff, ← hrestored]
    exact ⟨fun ⟨h, d, hd, hrestore⟩ => ⟨d, hd, h, hrestore⟩, fun ⟨d, hd, h, hrestore⟩ => ⟨h, d, hd, hrestore⟩⟩
  refine ⟨fun d => ⟨hrestored d, fun h => ?_, fun e he => ?_⟩, fun text => ⟨htext text, fun e he => ?_⟩,
    fun bytes => ⟨?_, fun e he => ?_⟩⟩
  · rw [restore_eq]
    exact Document.toGraph_eq_ok_iff_describes
  · rw [Call.apply_restore]
    exact hfailed he
  · rw [Call.apply_read]
    exact hfailed he
  · simp only [readBytes_eq_ok_iff]
    constructor
    · rintro ⟨h, text, hbytes, hread⟩
      obtain ⟨d, hd, hvalid⟩ := (htext text).1 ⟨h, hread⟩
      exact ⟨text, d, hbytes, hd, hvalid⟩
    · rintro ⟨text, d, hbytes, hd, hvalid⟩
      obtain ⟨h, hread⟩ := (htext text).2 ⟨d, hd, hvalid⟩
      exact ⟨h, text, hbytes, hread⟩
  · rw [Call.apply_readBytes]
    exact hfailed he

/-- A cell that feeds the root is restored with its edge, and the record of the root alone is refused. -/
theorem restore_exact_of_fed :
    let a : Record := ⟨⟨1⟩, "a", some (.number 2), [], .empty, none, none⟩
    let root : Record := ⟨⟨0⟩, "root", some (.expression "$1"), [⟨1⟩], .empty, none, none⟩
    let d : Document := ⟨[(⟨0⟩, []), (⟨1⟩, [⟨0⟩])], [a, root]⟩
    d.Valid ∧ (∃ h, initial.restore d = .ok h ∧ h.ids = [⟨0⟩, ⟨1⟩] ∧ h.targets ⟨1⟩ = [⟨0⟩]) ∧
      ∃ e, initial.restore { d with nodes := [root] } = .error e ∧
        (Call.restore { d with nodes := [root] }).apply initial = initial := by
  intro a root d
  have hfeeds : ∀ x y, d.Feeds x y ↔ x = ⟨1⟩ ∧ y = ⟨0⟩ := by
    intro x y
    simp only [Document.Feeds, d, List.mem_cons, List.not_mem_nil, or_false, exists_eq_or_imp, and_false, false_or,
      exists_eq_left]
    exact and_congr_left' eq_comm
  have hvalid : d.Valid := by
    refine ⟨by decide, by decide, fun id => ?_, ?_, ⟨⟨0⟩, _, rfl, ?_⟩, ?_, ?_⟩
    · simp [d, a, root, or_comm]
    · intro x y hxy
      rw [((hfeeds x y).1 hxy).2]
      decide
    · exact fun x y hx hy => ((hfeeds x _).1 hx).1.trans ((hfeeds y _).1 hy).1.symm
    · intro c hcycle
      obtain ⟨y, hcy, -⟩ := TransGen.head'_iff.1 hcycle
      obtain ⟨x, -, hxc⟩ := TransGen.tail'_iff.1 hcycle
      exact absurd (((hfeeds c y).1 hcy).1.symm.trans ((hfeeds x c).1 hxc).2) (by decide)
    · simp [d, a, root, hfeeds]
  obtain ⟨hexact, hdescribes, -⟩ := (restore_exact initial).1 d
  obtain ⟨h, hrestore⟩ := hexact.2 hvalid
  have hh := ((hdescribes h).1 hrestore).2
  have htargets : h.targets ⟨1⟩ = [⟨0⟩] := hh.targets (⟨1⟩, [⟨0⟩]) (by simp [d])
  have hrefused : initial.restore { d with nodes := [root] } = .error (.noRecord ⟨1⟩) := restore_eq _ _
  exact ⟨hvalid, ⟨h, hrestore, hh.ids, htargets⟩, _, hrefused,
    ((restore_exact initial).1 { d with nodes := [root] }).2.2 _ hrefused⟩

end Graph

end CellGraph
