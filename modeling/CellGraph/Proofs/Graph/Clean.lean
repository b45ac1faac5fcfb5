import CellGraph.Proofs.Graph.Connect
import CellGraph.Proofs.Graph.Meaning
import CellGraph.Proofs.Store.Restriction

/-!
# Cleaning a graph

`Graph.sweep` takes out cells that feed nothing, as they come up in a work list.  While it goes on, the store is the
present graph without the cells that were taken out, each of which fed only such that were taken out before (`Swept`),
and every cell that could be taken out next is in the list.  So in the end the cells are those from which the root can
be reached (`Cleaned.mem_ids_iff`), evaluation goes through them in the old order (`Cleaned.schedule_eq`), and another
sweep finds nothing.
-/

namespace CellGraph

open Relation (TransGen ReflTransGen)

/-! ### Compiling again -/

namespace Cell

theorem state_compile_ne_stale (c : Cell) : c.compile.state ≠ .stale := by
  unfold compile
  split
  · split
    · exact nofun
    · exact nofun
  · assumption

/-- Compiling a cell keeps what its outcome goes by. -/
theorem views_compile (c : Cell) :
    c.compile.rule = c.rule ∧ c.compile.fallback = c.fallback ∧ c.compile.precision = c.precision := by
  unfold compile
  split
  · split
    · exact ⟨rfl, rfl, rfl⟩
    · exact ⟨rfl, rfl, rfl⟩
  · exact ⟨rfl, rfl, rfl⟩

/-- Compiling a cell again from nothing changes nothing. -/
theorem compile_invalidate_compile (c : Cell) : c.invalidate.compile.invalidate.compile = c.invalidate.compile := by
  rcases hc : c.rule.compile c.inputs.length with e | program
  · simp only [compile, invalidate, hc]
  · simp only [compile, invalidate, hc]

end Cell

/-- Changing no cell changes nothing. -/
theorem Store.map_eq_self {s : Store} {f : Cell → Cell} (hf : ∀ id c, s.cell? id = some c → f c = c) :
    s.map f = s := by
  have hcells : s.cells.map f = s.cells := by
    refine IdMap.ext_get? (IdMap.ids_map ..) fun id _ => ?_
    rw [IdMap.get?_map]
    rcases hc : s.cells.get? id with _ | c
    · rfl
    · rw [Option.map_some, hf id c hc]
  obtain ⟨cells, targetLists, nextId, hids⟩ := s
  simp only [Store.map, hcells]

namespace Graph

variable {g : Graph}

/-! ### The invariant of a sweep -/

/-- What is left of a graph when some cells are taken out, the last one first in the list. -/
structure Swept (g : Graph) (s : Store) (removed : List NodeId) : Prop where
  wellFormed : s.WellFormed
  ids : s.ids = g.ids.filter fun id => decide (id ∉ removed)
  cell : ∀ id, id ∉ removed → s.cell? id = g.cell? id
  targets : ∀ id, id ∉ removed → s.targets id = (g.targets id).filter fun t => decide (t ∉ removed)
  nextId : s.nextId = g.store.nextId
  nodup : removed.Nodup
  subset : ∀ id ∈ removed, id ∈ g.ids ∧ id ≠ g.root
  ordered : ∀ later id earlier, removed = later ++ id :: earlier → ∀ t ∈ g.targets id, t ∈ earlier

theorem WellFormed.swept (hg : g.WellFormed) : Swept g g.store [] where
  wellFormed := hg.store
  ids := by
    rw [List.filter_eq_self.2 (by simp)]
    rfl
  cell _ _ := rfl
  targets _ _ := by
    rw [List.filter_eq_self.2 (by simp)]
    rfl
  nextId := rfl
  nodup := List.nodup_nil
  subset _ hid := absurd hid List.not_mem_nil
  ordered later _ _ hsplit := absurd hsplit.symm (by simp)

namespace Swept

variable {s : Store} {removed : List NodeId}

theorem mem_ids_iff (h : Swept g s removed) {id : NodeId} : id ∈ s.ids ↔ id ∈ g.ids ∧ id ∉ removed := by
  rw [h.ids, List.mem_filter, decide_eq_true_iff]

/-- A cell that feeds nothing any more can be taken out next. -/
theorem detach (h : Swept g s removed) {id : NodeId} (hid : id ∈ s.ids) (hroot : id ≠ g.root)
    (hnone : s.targets id = []) : Swept g (s.detach id) (id :: removed) := by
  obtain ⟨hmem, hfresh⟩ := h.mem_ids_iff.1 hid
  have hfilter : ∀ is : List NodeId, (is.filter fun i => decide (i ∉ removed)).filter (· != id) =
      is.filter fun i => decide (i ∉ id :: removed) := by
    intro is
    rw [List.filter_filter]
    apply List.filter_congr
    intro i _
    by_cases hi : i = id <;> simp [hi]
  constructor
  case wellFormed => exact h.wellFormed.detach id
  case ids => rw [Store.ids_detach, h.ids, hfilter]
  case cell =>
    intro i hi
    rw [List.mem_cons, not_or] at hi
    rw [Store.cell?_detach, if_neg hi.1, hnone, List.count_nil, Function.iterate_zero, Option.map_id, h.cell i hi.2]
    rfl
  case targets =>
    intro i hi
    rw [List.mem_cons, not_or] at hi
    rw [(h.wellFormed.views_detach id i).1, if_neg hi.1, h.targets i hi.2, hfilter]
  case nextId => rw [Store.nextId_detach, h.nextId]
  case nodup => exact List.nodup_cons.2 ⟨hfresh, h.nodup⟩
  case subset => exact List.forall_mem_cons.2 ⟨⟨hmem, hroot⟩, h.subset⟩
  case ordered =>
    intro later i earlier hsplit
    rcases later with _ | ⟨j, later⟩
    · obtain ⟨rfl, rfl⟩ := List.cons.inj hsplit
      intro t ht
      by_contra hkept
      have hleft : t ∈ s.targets id := by
        rw [h.targets id hfresh, List.mem_filter, decide_eq_true_iff]
        exact ⟨ht, hkept⟩
      rw [hnone] at hleft
      exact absurd hleft List.not_mem_nil
    · exact h.ordered later i earlier (List.cons.inj hsplit).2

/-- What becomes free to be taken out with a cell fed only that one. -/
private theorem mem_found (h : Swept g s removed) {id i : NodeId} {work : List NodeId}
    (hwork : ∀ i ∈ s.ids, i ≠ g.root → s.targets i = [] → i ∈ id :: work) (hi : i ∈ (s.detach id).ids)
    (hroot : i ≠ g.root) (hnone : (s.detach id).targets i = []) :
    i ∈ (s.inputs id).filter (fun source => source != g.root && ((s.detach id).targets source).isEmpty) ∨ i ∈ work := by
  rw [Store.ids_detach, List.mem_filter, bne_iff_ne] at hi
  by_cases hfed : i ∈ s.inputs id
  · left
    rw [List.mem_filter, hnone]
    exact ⟨hfed, by simpa using hroot⟩
  · right
    have hsame : (s.targets i).filter (· != id) = s.targets i := by
      rw [List.filter_eq_self]
      intro t ht
      have hne : t ≠ id := by
        rintro rfl
        exact hfed ((h.wellFormed.mirror i t).1 ht)
      simpa using hne
    rw [(h.wellFormed.views_detach id i).1, if_neg hi.2, hsame] at hnone
    exact (List.mem_cons.1 (hwork i hi.1 hroot hnone)).resolve_left hi.2

/-- If the work list has all cells that can be taken out, a sweep takes out until there is none. -/
theorem sweep (h : Swept g s removed) {work : List NodeId}
    (hwork : ∀ id ∈ s.ids, id ≠ g.root → s.targets id = [] → id ∈ work) :
    Swept g (sweep g.root s work removed).2 (sweep g.root s work removed).1.reverse ∧
      ∀ id ∈ (sweep g.root s work removed).2.ids, id ≠ g.root → (sweep g.root s work removed).2.targets id ≠ [] := by
  fun_induction Graph.sweep g.root s work removed with
  | case1 s removed =>
    rw [List.reverse_reverse]
    exact ⟨h, fun id hid hroot hnone => absurd (hwork id hid hroot hnone) List.not_mem_nil⟩
  | case2 s removed id work hskip ih =>
    refine ih h fun i hi hroot hnone => (List.mem_cons.1 (hwork i hi hroot hnone)).resolve_left ?_
    rintro rfl
    rw [hnone] at hskip
    simp [hroot] at hskip
  | case3 s removed id work _ hgone ih =>
    refine ih h fun i hi hroot hnone => (List.mem_cons.1 (hwork i hi hroot hnone)).resolve_left ?_
    rintro rfl
    obtain ⟨c, hc⟩ := Store.mem_ids_iff.1 hi
    rw [Store.remove?_eq hc] at hgone
    exact absurd hgone (Option.some_ne_none _)
  | case4 s removed id work hskip c t hremove _ found ih =>
    have hid : id ∈ s.ids := by
      by_contra hid
      rw [Store.remove?_eq_none hid] at hremove
      exact absurd hremove.symm (Option.some_ne_none _)
    obtain ⟨d, hd⟩ := Store.mem_ids_iff.1 hid
    rw [Store.remove?_eq hd] at hremove
    obtain ⟨-, rfl⟩ := Prod.mk.inj (Option.some.inj hremove)
    simp only [Bool.or_eq_true, beq_iff_eq, Bool.not_eq_true', not_or, Bool.not_eq_false, List.isEmpty_iff] at hskip
    refine ih (h.detach hid hskip.1 hskip.2) fun i hi hroot hnone => ?_
    rw [List.mem_append, List.mem_reverse]
    exact h.mem_found hwork hi hroot hnone

end Swept

/-! ### A clean graph -/

/-- The second graph is the first one without the cells that were taken out, the first one first in the list.  Its cells
are compiled from nothing, and each but the root feeds one that is left. -/
structure Cleaned (g h : Graph) (removed : List NodeId) : Prop where
  wellFormed : h.WellFormed
  root : h.root = g.root
  config : h.config = g.config
  nextId : h.store.nextId = g.store.nextId
  ids : h.ids = g.ids.filter fun id => decide (id ∉ removed)
  cell : ∀ id, id ∉ removed → h.cell? id = (g.cell? id).map fun c => c.invalidate.compile
  targets : ∀ id, id ∉ removed → h.targets id = (g.targets id).filter fun t => decide (t ∉ removed)
  nodup : removed.Nodup
  subset : ∀ id ∈ removed, id ∈ g.ids ∧ id ≠ g.root
  ordered : ∀ earlier id later, removed = earlier ++ id :: later → ∀ t ∈ g.targets id, t ∈ earlier
  feeds : ∀ id ∈ h.ids, id ≠ g.root → h.targets id ≠ []

theorem WellFormed.cleaned (hg : g.WellFormed) : Cleaned g g.clean.2 g.clean.1 := by
  have hwork : ∀ id ∈ g.store.ids, id ≠ g.root → g.store.targets id = [] → id ∈ g.orphans.reverse := by
    intro id hid hroot hnone
    have hempty : g.targets id = [] := hnone
    rw [List.mem_reverse, orphans, List.mem_filter, hempty]
    exact ⟨hid, by simpa using hroot⟩
  obtain ⟨hswept, hfeeds⟩ := hg.swept.sweep hwork
  have hgone : ∀ {id}, id ∉ g.clean.1 → id ∉ g.clean.1.reverse := fun hid hmem => hid (List.mem_reverse.1 hmem)
  have hgone' : ∀ ids : List NodeId, (ids.filter fun id => decide (id ∉ g.clean.1.reverse)) =
      ids.filter fun id => decide (id ∉ g.clean.1) := by
    intro ids
    simp only [List.mem_reverse]
  change Swept g (Graph.sweep g.root g.store g.orphans.reverse []).2 g.clean.1.reverse at hswept
  constructor
  case wellFormed => exact kept_wellFormed.apply hg .clean fun _ hadd => nomatch hadd
  case root => rfl
  case config => rfl
  case nextId => exact hswept.nextId
  case ids => exact (Store.ids_map _).trans (hswept.ids.trans (hgone' _))
  case cell =>
    intro id hid
    exact (Store.cell?_map _ id).trans (congrArg _ (hswept.cell id (hgone hid)))
  case targets => exact fun id hid => (hswept.targets id (hgone hid)).trans (hgone' _)
  case nodup => exact List.nodup_reverse.1 hswept.nodup
  case subset => exact fun id hid => hswept.subset id (List.mem_reverse.2 hid)
  case ordered =>
    intro earlier id later hsplit t ht
    refine List.mem_reverse.1 (hswept.ordered later.reverse id earlier.reverse ?_ t ht)
    rw [hsplit, List.reverse_append, List.reverse_cons, List.append_assoc, List.singleton_append]
  case feeds =>
    intro id hid
    exact hfeeds id (Store.ids_map _ ▸ hid)

namespace Cleaned

variable {h : Graph} {removed : List NodeId}

theorem mem_ids (hc : Cleaned g h removed) {id : NodeId} : id ∈ h.ids ↔ id ∈ g.ids ∧ id ∉ removed := by
  rw [hc.ids, List.mem_filter, decide_eq_true_iff]

/-- A cell that feeds one that is left is left. -/
theorem closed (hc : Cleaned g h removed) {a b : NodeId} (hab : b ∈ g.targets a) (hb : b ∉ removed) : a ∉ removed := by
  intro ha
  obtain ⟨earlier, later, hsplit⟩ := List.append_of_mem ha
  have hearlier := hc.ordered earlier a later hsplit b hab
  exact hb (hsplit ▸ List.mem_append_left _ hearlier)

theorem root_not_mem (hc : Cleaned g h removed) : g.root ∉ removed := fun hroot => (hc.subset _ hroot).2 rfl

/-- An edge of the clean graph was there before. -/
theorem mem_targets (hc : Cleaned g h removed) {a b : NodeId} (hab : b ∈ h.targets a) : b ∈ g.targets a := by
  have ha : a ∈ h.ids := Store.mem_ids_of_mem_targets hab
  rw [hc.targets a (hc.mem_ids.1 ha).2] at hab
  exact (List.mem_filter.1 hab).1

/-- Each cell but the root feeds one that is left and paths end, so the root is reached from every cell. -/
theorem reaches_root (hc : Cleaned g h removed) {id : NodeId} (hid : id ∈ h.ids) :
    ReflTransGen (fun a b => b ∈ h.targets a) id h.root := by
  have hwf := wellFounded_of_acyclic hc.wellFormed.store.acyclic
  induction id using hwf.induction with
  | h id ih =>
    by_cases hroot : id = g.root
    · rw [hroot, hc.root]
    · obtain ⟨t, ht⟩ := List.exists_mem_of_ne_nil _ (hc.feeds id hid hroot)
      have hmem : t ∈ h.ids := (hc.wellFormed.store.mem_ids_of_edge ht).2
      exact (ih t (.single ht) hmem).head ht

/-- The cells that are left are those from which the root can be reached. -/
theorem mem_ids_iff (hc : Cleaned g h removed) (hg : g.WellFormed) {id : NodeId} :
    id ∈ h.ids ↔ ReflTransGen (fun a b => b ∈ g.targets a) id g.root := by
  constructor
  · intro hid
    have hpath := hc.reaches_root hid
    rw [hc.root] at hpath
    exact ReflTransGen.mono (fun _ _ => hc.mem_targets) _ _ hpath
  · intro hpath
    induction hpath using ReflTransGen.head_induction_on with
    | refl => exact hc.mem_ids.2 ⟨hg.root_mem, hc.root_not_mem⟩
    | head hstep _ ih =>
      exact hc.mem_ids.2 ⟨(hg.store.mem_ids_of_edge hstep).1, hc.closed hstep (hc.mem_ids.1 ih).2⟩

theorem mem_removed_iff (hc : Cleaned g h removed) {id : NodeId} : id ∈ removed ↔ id ∈ g.ids ∧ id ∉ h.ids := by
  rw [hc.mem_ids]
  constructor
  · exact fun hid => ⟨(hc.subset id hid).1, fun hleft => hleft.2 hid⟩
  · rintro ⟨hid, hgone⟩
    by_contra hleft
    exact hgone ⟨hid, hleft⟩

/-- The cells that are left have their inputs. -/
theorem inputs (hc : Cleaned g h removed) {id : NodeId} (hid : id ∈ h.ids) : h.inputs id = g.inputs id := by
  obtain ⟨hmem, hleft⟩ := hc.mem_ids.1 hid
  obtain ⟨c, hcell⟩ := Store.mem_ids_iff.1 hmem
  change g.cell? id = some c at hcell
  have hnew : h.cell? id = some c.invalidate.compile := by rw [hc.cell id hleft, hcell, Option.map_some]
  rw [Graph.inputs, Store.inputs_of_cell? hnew, Cell.inputs_compile, Graph.inputs, Store.inputs_of_cell? hcell]
  rfl

theorem orphans_eq_nil (hc : Cleaned g h removed) : h.orphans = [] := by
  rw [orphans, List.filter_eq_nil_iff]
  intro id hid horphan
  rw [Bool.and_eq_true, bne_iff_ne, List.isEmpty_iff, hc.root] at horphan
  exact hc.feeds id hid horphan.1 horphan.2

/-! ### Evaluating a clean graph -/

theorem restricts (hc : Cleaned g h removed) : g.store.Restricts h.store fun id => decide (id ∉ removed) where
  ids := hc.ids
  targets id hid := hc.targets id (of_decide_eq_true hid)
  closed _ _ hab hb := decide_eq_true (hc.closed hab (of_decide_eq_true hb))

/-- A clean graph is evaluated in the same order. -/
theorem schedule_eq (hc : Cleaned g h removed) (hg : g.WellFormed) :
    h.store.schedule h.root = g.store.schedule g.root := by
  have hafter : h.store.schedule h.root = h.store.sort.filter fun _ => true :=
    hc.wellFormed.store.schedule_eq_filter hc.wellFormed.root_mem
      fun id hid => ⟨fun _ => hc.reaches_root hid, fun _ => rfl⟩
  have hbefore : g.store.schedule g.root = g.store.sort.filter fun id => decide (id ∉ removed) := by
    refine hg.store.schedule_eq_filter hg.root_mem fun id hid => ?_
    rw [decide_eq_true_iff, ← and_iff_right hid (b := id ∉ removed)]
    exact hc.mem_ids.symm.trans (hc.mem_ids_iff hg)
  rw [hafter, hbefore, List.filter_true, Store.sort_of_restricts hc.restricts]

/-- What leads to a cell that is left is left, so the cell means what it meant. -/
theorem means_of_left (hc : Cleaned g h removed) (hg : g.WellFormed) {id : NodeId} {o : Outcome} (hid : id ∈ h.ids)
    (ho : g.Means id o) : h.Means id o := by
  refine ho.of_cone fun a c hpath hcell => ?_
  have ha : a ∉ removed := by
    clear hcell
    induction hpath using ReflTransGen.head_induction_on with
    | refl => exact (hc.mem_ids.1 hid).2
    | head hstep _ ih => exact hc.closed ((hg.store.mirror _ _).2 hstep) ih
  have hnew : h.cell? a = some c.invalidate.compile := by rw [hc.cell a ha, hcell, Option.map_some]
  obtain ⟨hrule, hfallback, hprecision⟩ := c.invalidate.views_compile
  exact ⟨c.invalidate.compile, hnew, hrule, hfallback, hprecision, Cell.inputs_compile c.invalidate⟩

/-! ### Cleaning again -/

/-- Nothing is taken out of a clean graph, and its cells are compiled as they would be. -/
theorem clean_eq (hc : Cleaned g h removed) : h.clean = ([], h) := by
  have hmap : (h.store.map fun c => c.invalidate.compile) = h.store := by
    refine Store.map_eq_self fun id c hcell => ?_
    have hleft : id ∉ removed := (hc.mem_ids.1 (Store.mem_ids_iff.2 ⟨c, hcell⟩)).2
    obtain ⟨d, -, rfl⟩ := Option.map_eq_some_iff.1 ((hc.cell id hleft).symm.trans hcell)
    exact d.compile_invalidate_compile
  rw [clean, hc.orphans_eq_nil, List.reverse_nil, sweep, List.reverse_nil]
  show ([], ({ h with store := h.store.map fun c => c.invalidate.compile } : Graph)) = ([], h)
  rw [hmap]

end Cleaned

/-- Cleaning leaves exactly the cells from which the root can be reached, in the old order and with their inputs, each
compiled from nothing and without the targets that are gone.  It lists every cell that is gone once, after all that it
fed.  Then nothing is left to clean, and evaluation has the order, the values and the faults it had before. -/
theorem Reachable.clean_exact (hg : g.Reachable) :
    g.clean.2.root = g.root ∧ g.clean.2.config = g.config ∧ g.clean.2.store.nextId = g.store.nextId ∧
      g.clean.2.ids = (g.ids.filter fun id => decide (id ∉ g.clean.1)) ∧
      (∀ id, id ∈ g.clean.2.ids ↔ ReflTransGen (fun a b => b ∈ g.targets a) id g.root) ∧
      (∀ id ∈ g.clean.2.ids, g.clean.2.inputs id = g.inputs id ∧
        g.clean.2.targets id = ((g.targets id).filter fun t => decide (t ∉ g.clean.1)) ∧
        ∃ c, g.cell? id = some c ∧ g.clean.2.cell? id = some c.invalidate.compile ∧
          c.invalidate.compile.state ≠ .stale) ∧
      g.clean.1.Nodup ∧ (∀ id, id ∈ g.clean.1 ↔ id ∈ g.ids ∧ id ∉ g.clean.2.ids) ∧
      (∀ earlier id later, g.clean.1 = earlier ++ id :: later → ∀ t ∈ g.targets id, t ∈ earlier) ∧
      g.clean.2.orphans = [] ∧ g.clean.2.clean = ([], g.clean.2) ∧ g.clean.2.evaluate.1 = g.evaluate.1 := by
  have hwell := hg.wellFormed
  have hc := hwell.cleaned
  have hcells : ∀ id ∈ g.clean.2.ids, ∃ c, g.cell? id = some c ∧ g.clean.2.cell? id = some c.invalidate.compile ∧
      c.invalidate.compile.state ≠ .stale := by
    intro id hid
    obtain ⟨hmem, hleft⟩ := hc.mem_ids.1 hid
    obtain ⟨c, hcell⟩ := Store.mem_ids_iff.1 hmem
    change g.cell? id = some c at hcell
    exact ⟨c, hcell, by rw [hc.cell id hleft, hcell, Option.map_some], c.invalidate.state_compile_ne_stale⟩
  have hledger : g.clean.2.evaluate.1 = g.evaluate.1 := by
    have hafter : g.clean.2.Reachable := hg.call .clean fun _ hadd => nomatch hadd
    refine hg.evaluate_congr hafter (hc.schedule_eq hwell) fun id hid o ho => ?_
    exact hc.means_of_left hwell ((hc.mem_ids_iff hwell).2 ((hwell.store.mem_schedule_iff hwell.root_mem).1 hid)) ho
  exact ⟨hc.root, hc.config, hc.nextId, hc.ids, fun _ => hc.mem_ids_iff hwell,
    fun id hid => ⟨hc.inputs hid, hc.targets id (hc.mem_ids.1 hid).2, hcells id hid⟩, hc.nodup,
    fun _ => hc.mem_removed_iff, hc.ordered, hc.orphans_eq_nil, hc.clean_eq, hledger⟩

/-- A cell that feeds the root stays, and one that feeds nothing goes. -/
theorem clean_exact_of_created :
    let k := initial.applyAll [.create "a", .create "b"]
    let g := k.connect ⟨1⟩ ⟨0⟩
    ⟨1⟩ ∈ g.clean.2.ids ∧ ⟨2⟩ ∈ g.clean.1 ∧ g.clean.2.evaluate.1 = g.evaluate.1 := by
  intro k g
  have hk : k.Reachable := (Reachable.new .standard).applyAll (Call.reachable_of_not_adds rfl)
  have hg : g.Reachable := hk.call (.connect ⟨1⟩ ⟨0⟩) fun _ hadd => nomatch hadd
  have haccepts : k.Accepts ⟨1⟩ ⟨0⟩ := hk.wellFormed.accepts_root (by decide) (by decide) (by decide)
  have hconnected : g = { k with store := k.store.link ⟨1⟩ ⟨0⟩ } := hk.wellFormed.connect_of_accepts haccepts
  have hedge : g.root ∈ g.targets ⟨1⟩ := by
    rw [hconnected]
    decide
  have hnone : ⟨2⟩ ∈ g.ids ∧ ⟨2⟩ ≠ g.root ∧ g.targets ⟨2⟩ = [] := by
    rw [hconnected]
    decide
  obtain ⟨-, -, -, -, hmem, -, -, hgone, -, -, -, hledger⟩ := Reachable.clean_exact hg
  have hpath : ¬ ReflTransGen (fun a b => b ∈ g.targets a) ⟨2⟩ g.root := by
    intro hpath
    rcases hpath.cases_head with heq | ⟨next, hstep, -⟩
    · exact hnone.2.1 heq
    · rw [hnone.2.2] at hstep
      exact absurd hstep List.not_mem_nil
  exact ⟨(hmem _).2 (.single hedge), (hgone _).2 ⟨hnone.1, fun hid => hpath ((hmem _).1 hid)⟩, hledger⟩

end Graph

end CellGraph
