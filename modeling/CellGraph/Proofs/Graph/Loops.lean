import CellGraph.Graph.Trace
import CellGraph.Proofs.Store.Contributing

/-!
# Loops that end

Sorting, cleaning and tracing are loops over a stack.  Here each loop is taken turn by turn, without a limit on their
number, and shown to end where the definition says (`Ends`): `Store.ends_sort`, `Graph.ends_sweep` and
`Graph.ends_walk`.  Nothing is asked of the graph, so this holds of any edges and inputs, also such that contradict each
other.
-/

namespace CellGraph

/-- Whether a loop that goes from state to state, as long as there is a next one, comes to an end in a state. -/
inductive Ends {σ : Type} (next? : σ → Option σ) : σ → σ → Prop
  | here {s : σ} : next? s = none → Ends next? s s
  | turn {s t u : σ} : next? s = some t → Ends next? t u → Ends next? s u

/-! ### Peeling -/

namespace Peeling

variable {arcs : NodeId → List NodeId}

/-- One turn of peeling: the node that became free last is taken. -/
def next? (arcs : NodeId → List NodeId) (p : Peeling) : Option Peeling :=
  match p.free with
  | [] => none
  | id :: free => some (p.take arcs id free)

/-- A run that leaves no node free went through all turns. -/
theorem ends_run {n : Nat} {p : Peeling} (h : (p.run arcs n).free = []) : Ends (next? arcs) p (p.run arcs n) := by
  induction n generalizing p with
  | zero =>
    have hfree : p.free = [] := h
    exact .here (by rw [next?, hfree])
  | succ n ih =>
    rw [run] at h ⊢
    split at h
    · rename_i hfree
      exact .here (by rw [next?, hfree])
    · rename_i id free hfree
      exact .turn (by rw [next?, hfree]) (ih h)

end Peeling

namespace Store

/-- Sorting ends. -/
theorem ends_sort (s : Store) :
    ∃ p, Ends (Peeling.next? s.targets) (.start s.ids (s.indegrees none)) p ∧ p.taken.reverse = s.sort :=
  ⟨_, Peeling.ends_run s.free_run_sort, (sortWith_eq_peel s none).symm⟩

end Store

/-! ### Cleaning -/

namespace Graph

/-- What is left of a store while it is swept, the cells that are still to be looked at, and the ids that were taken
out, the last one first. -/
structure Sweeping where
  store : Store
  work : List NodeId
  removed : List NodeId

/-- One turn of a sweep: the cell that was found last is taken out if it feeds nothing, and then the cells that fed it
are looked at. -/
def Sweeping.next? (root : NodeId) : Sweeping → Option Sweeping
  | ⟨_, [], _⟩ => none
  | ⟨s, id :: work, removed⟩ =>
    if id == root || !(s.targets id).isEmpty then some ⟨s, work, removed⟩
    else
      match s.remove? id with
      | none => some ⟨s, work, removed⟩
      | some (_, t) =>
        let found := (s.inputs id).filter fun source => source != root && (t.targets source).isEmpty
        some ⟨t, found.reverse ++ work, id :: removed⟩

/-- A sweep ends. -/
theorem ends_sweep (root : NodeId) (s : Store) (work removed : List NodeId) :
    Ends (Sweeping.next? root) ⟨s, work, removed⟩
      ⟨(sweep root s work removed).2, [], (sweep root s work removed).1.reverse⟩ := by
  fun_induction sweep root s work removed with
  | case1 s removed =>
    rw [List.reverse_reverse]
    exact .here rfl
  | case2 s removed id work hskip ih =>
    refine .turn ?_ ih
    rw [Sweeping.next?, if_pos hskip]
  | case3 s removed id work hskip hnone ih =>
    refine .turn ?_ ih
    rw [Sweeping.next?, if_neg hskip, hnone]
  | case4 s removed id work hskip c t hremove hsize found ih =>
    refine .turn ?_ ih
    rw [Sweeping.next?, if_neg hskip, hremove]

/-! ### Tracing -/

/-- The ids that were seen, with the levels of their first places, the places that are still to be visited, and the
entries, the last one first. -/
structure Walking where
  seen : List (NodeId × Nat)
  places : List (NodeId × List Bool)
  entries : List Trace.Entry

/-- One turn of a walk: the next place gets its entry, and if a cell is shown in full there, its inputs come next. -/
def Walking.next? (g : Graph) : Walking → Option Walking
  | ⟨_, [], _⟩ => none
  | ⟨seen, (id, branch) :: places, entries⟩ =>
    match seen.lookup id with
    | some level => some ⟨seen, places, ⟨branch, .reference level⟩ :: entries⟩
    | none =>
      match g.cell? id with
      | none => some ⟨(id, Trace.level branch) :: seen, places, ⟨branch, .missing id⟩ :: entries⟩
      | some c =>
        some ⟨(id, Trace.level branch) :: seen, Trace.children branch c.inputs ++ places,
          ⟨branch, .cell id c⟩ :: entries⟩

/-- A walk ends, also if inputs lead round in a circle or to ids without a cell. -/
theorem ends_walk (g : Graph) (seen : List (NodeId × Nat)) (places : List (NodeId × List Bool))
    (entries : List Trace.Entry) :
    ∃ seen', Ends (Walking.next? g) ⟨seen, places, entries⟩ ⟨seen', [], (g.walk seen places).reverse ++ entries⟩ := by
  fun_induction walk g seen places generalizing entries with
  | case1 seen => exact ⟨seen, .here rfl⟩
  | case2 seen id branch places level hseen ih =>
    obtain ⟨seen', hends⟩ := ih (⟨branch, .reference level⟩ :: entries)
    rw [List.reverse_cons, List.append_assoc, List.singleton_append]
    refine ⟨seen', .turn ?_ hends⟩
    rw [Walking.next?, hseen]
  | case3 seen id branch places hseen hcell ih =>
    obtain ⟨seen', hends⟩ := ih (⟨branch, .missing id⟩ :: entries)
    rw [List.reverse_cons, List.append_assoc, List.singleton_append]
    refine ⟨seen', .turn ?_ hends⟩
    rw [Walking.next?, hseen, hcell]
  | case4 seen id branch places hseen c hcell _ ih =>
    obtain ⟨seen', hends⟩ := ih (⟨branch, .cell id c⟩ :: entries)
    rw [List.reverse_cons, List.append_assoc, List.singleton_append]
    refine ⟨seen', .turn ?_ hends⟩
    rw [Walking.next?, hseen, hcell]

end Graph

end CellGraph
