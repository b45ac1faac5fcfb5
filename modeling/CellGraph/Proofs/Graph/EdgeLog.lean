import CellGraph.NodeId
import Mathlib.Data.List.Dedup

/-!
# Logs of edges

A log says in which order edges were accepted and ended.  The edges that stand in the end are those to which an
acceptance happened last (`mem_standing`), in the order of these acceptances.  Replaying a log on some edges that were
there from the start keeps those that never end, in their order, and puts after them those that stand
(`EdgeLog.replay`).  One more acceptance adds an edge at the end (`replay_accepted`), edges that end are taken out from
among the others (`replay_ended`), and an edge that is gone in the end has left no trace (`replay_without`).
-/

namespace CellGraph

/-- An edge from one id to another. -/
abbrev Edge := NodeId × NodeId

/-- What can happen to an edge. -/
inductive EdgeEvent where
  | accepted (edge : Edge)
  | ended (edge : Edge)
deriving DecidableEq

namespace EdgeEvent

def edge : EdgeEvent → Edge
  | accepted e => e
  | ended e => e

def accepted? : EdgeEvent → Option Edge
  | accepted e => some e
  | ended _ => none

end EdgeEvent

/-! ### Logs -/

namespace EdgeLog

variable {log : List EdgeEvent} {e : Edge}

/-- The last that happened to an edge. -/
def last? (log : List EdgeEvent) (e : Edge) : Option EdgeEvent := (log.filter fun event => event.edge == e).getLast?

/-- The edges that were accepted, in the order of their last acceptance. -/
def acceptances (log : List EdgeEvent) : List Edge := (log.filterMap EdgeEvent.accepted?).dedup

/-- The edges that were accepted and have not ended since, in the order of their last acceptance. -/
def standing (log : List EdgeEvent) : List Edge :=
  (acceptances log).filter fun e => last? log e == some (.accepted e)

/-- What becomes of some of the edges: those that never end stay in their order, and those that are accepted and do not
end any more come after them. -/
def replay (start : List Edge) (log : List EdgeEvent) (p : Edge → Bool) : List Edge :=
  (start.filter fun e => decide (.ended e ∉ log)) ++ (standing log).filter p

/-- A log without what happened to an edge. -/
def without (e : Edge) (log : List EdgeEvent) : List EdgeEvent := log.filter fun event => event.edge != e

theorem last?_append (log log' : List EdgeEvent) (e : Edge) :
    last? (log ++ log') e = (last? log' e).or (last? log e) := by
  rw [last?, List.filter_append, List.getLast?_append]
  rfl

theorem last?_accepted (e e' : Edge) : last? [.accepted e] e' = if e' = e then some (.accepted e) else none := by
  by_cases he : e' = e
  · simp [last?, EdgeEvent.edge, he]
  · simp [last?, EdgeEvent.edge, he, Ne.symm he]

theorem edge_of_last? {event : EdgeEvent} (h : last? log e = some event) : event ∈ log ∧ event.edge = e := by
  have hmem := List.mem_of_getLast? h
  rw [List.mem_filter, beq_iff_eq] at hmem
  exact hmem

theorem last?_eq_none : last? log e = none ↔ ∀ event ∈ log, event.edge ≠ e := by
  simp [last?]

theorem last?_ended (es : List Edge) (e : Edge) :
    last? (es.map .ended) e = if e ∈ es then some (.ended e) else none := by
  rcases hlast : last? (es.map .ended) e with _ | event
  · have hnone := last?_eq_none.1 hlast
    rw [if_neg fun he => hnone _ (List.mem_map_of_mem he) rfl]
  · obtain ⟨hmem, hedge⟩ := edge_of_last? hlast
    obtain ⟨e', he', rfl⟩ := List.mem_map.1 hmem
    obtain rfl : e' = e := hedge
    rw [if_pos he']

theorem mem_standing : e ∈ standing log ↔ last? log e = some (.accepted e) := by
  rw [standing, List.mem_filter, beq_iff_eq, and_iff_right_iff_imp]
  intro hlast
  rw [acceptances, List.mem_dedup, List.mem_filterMap]
  exact ⟨_, (edge_of_last? hlast).1, rfl⟩

/-- If an element comes last, its earlier occurrences do not count. -/
private theorem dedup_concat (es : List Edge) (e : Edge) : (es ++ [e]).dedup = es.dedup.filter (· != e) ++ [e] := by
  induction es with
  | nil => rfl
  | cons x es ih =>
    rw [List.cons_append, List.dedup_cons, List.dedup_cons, ih]
    by_cases hx : x = e
    · subst hx
      rw [if_pos (List.mem_append_right _ (List.mem_singleton_self x))]
      split
      · rfl
      · rw [List.filter_cons_of_neg (by simp)]
    · have hmem : x ∈ es ++ [e] ↔ x ∈ es := by simp [hx]
      simp only [hmem]
      split
      · rfl
      · rw [List.filter_cons_of_pos (by simpa using hx), List.cons_append]

private theorem dedup_filter (p : Edge → Bool) (es : List Edge) : (es.filter p).dedup = es.dedup.filter p := by
  induction es with
  | nil => rfl
  | cons x es ih =>
    by_cases hx : p x = true
    · have hmem : x ∈ es.filter p ↔ x ∈ es := by rw [List.mem_filter, and_iff_left hx]
      rw [List.filter_cons_of_pos hx, List.dedup_cons, List.dedup_cons, ih]
      simp only [hmem]
      split
      · rfl
      · rw [List.filter_cons_of_pos hx]
    · rw [List.filter_cons_of_neg hx, ih, List.dedup_cons]
      split
      · rfl
      · rw [List.filter_cons_of_neg hx]

/-- An edge that is accepted comes last. -/
theorem standing_accepted (hnew : e ∉ standing log) : standing (log ++ [.accepted e]) = standing log ++ [e] := by
  have hlast : ∀ e', last? (log ++ [.accepted e]) e' = if e' = e then some (.accepted e) else last? log e' := by
    intro e'
    rw [last?_append, last?_accepted]
    split <;> rfl
  have hacceptances : acceptances (log ++ [.accepted e]) = (acceptances log).filter (· != e) ++ [e] := by
    rw [acceptances, List.filterMap_append, acceptances, ← dedup_concat]
    rfl
  -- where the edge was accepted before, it has ended since
  have hkept : (acceptances log).filter (fun e' => last? (log ++ [.accepted e]) e' == some (.accepted e') && e' != e) =
      standing log := by
    apply List.filter_congr
    intro e' _
    rw [hlast]
    by_cases he : e' = e
    · subst he
      have hother : last? log e' ≠ some (.accepted e') := fun h => hnew (mem_standing.2 h)
      simp [hother]
    · simp [he]
  rw [standing, hacceptances, List.filter_append, List.filter_filter, hkept, List.filter_cons_of_pos (by simp [hlast]),
    List.filter_nil]

/-- Edges that end are taken out. -/
theorem standing_ended (es : List Edge) :
    standing (log ++ es.map .ended) = (standing log).filter fun e => decide (e ∉ es) := by
  have hacceptances : acceptances (log ++ es.map .ended) = acceptances log := by
    have hnone : (es.map EdgeEvent.ended).filterMap EdgeEvent.accepted? = [] := by
      rw [List.filterMap_map, List.filterMap_eq_nil_iff]
      exact fun _ _ => rfl
    rw [acceptances, List.filterMap_append, hnone, List.append_nil]
    rfl
  rw [standing, hacceptances, standing, List.filter_filter]
  apply List.filter_congr
  intro e _
  rw [last?_append, last?_ended]
  by_cases he : e ∈ es <;> simp [he]

/-- What happened to an edge that does not stand in the end has left no trace. -/
theorem standing_without (hgone : e ∉ standing log) : standing (without e log) = standing log := by
  have haccepted : (without e log).filterMap EdgeEvent.accepted? =
      (log.filterMap EdgeEvent.accepted?).filter (· != e) := by
    rw [without, List.filterMap_filter, List.filter_filterMap]
    apply List.filterMap_congr
    rintro (e' | e') _
    · by_cases he : e' = e <;> simp [EdgeEvent.accepted?, EdgeEvent.edge, Option.filter, he]
    · simp [EdgeEvent.accepted?]
  have hlast : ∀ e', e' ≠ e → last? (without e log) e' = last? log e' := by
    intro e' he
    rw [last?, without, List.filter_filter, last?]
    congr 1
    apply List.filter_congr
    intro event _
    by_cases hevent : event.edge = e' <;> simp [hevent, he]
  rw [standing, acceptances, haccepted, dedup_filter, List.filter_filter, standing, acceptances]
  apply List.filter_congr
  intro e' _
  by_cases he : e' = e
  · subst he
    have hother : last? log e' ≠ some (.accepted e') := fun h => hgone (mem_standing.2 h)
    simp [hother]
  · simp [he, hlast e' he]

/-! ### Replaying a log -/

variable {start : List Edge} {p : Edge → Bool}

theorem mem_replay :
    e ∈ replay start log p ↔ e ∈ start ∧ .ended e ∉ log ∨ last? log e = some (.accepted e) ∧ p e = true := by
  rw [replay, List.mem_append, List.mem_filter, List.mem_filter, decide_eq_true_iff, mem_standing]

theorem replay_nil : replay start [] p = start := by
  simp [replay, standing, acceptances]

/-- An edge that is new when it is accepted comes last. -/
theorem replay_accepted (hnew : e ∉ standing log) :
    replay start (log ++ [.accepted e]) p = replay start log p ++ if p e then [e] else [] := by
  have hended : ∀ e', EdgeEvent.ended e' ∈ log ++ [.accepted e] ↔ EdgeEvent.ended e' ∈ log := by simp
  simp only [replay, hended, standing_accepted hnew, List.filter_append, List.append_assoc, List.filter_cons,
    List.filter_nil]

/-- Edges that end are taken out from among all others. -/
theorem replay_ended (es : List Edge) :
    replay start (log ++ es.map .ended) p = (replay start log p).filter fun e => decide (e ∉ es) := by
  have hstart : (start.filter fun e => decide (.ended e ∉ log ++ es.map EdgeEvent.ended)) =
      (start.filter fun e => decide (.ended e ∉ log)).filter fun e => decide (e ∉ es) := by
    rw [List.filter_filter]
    apply List.filter_congr
    intro e _
    simp [not_or, and_comm]
  rw [replay, replay, hstart, standing_ended, List.filter_append, List.filter_comm p]

/-- An edge that is gone in the end leaves no trace, also if it was there in the beginning. -/
theorem replay_without (hended : e ∈ start → .ended e ∈ log) (hgone : e ∉ standing log) :
    replay (start.filter fun e' => decide (e' ∉ [e])) (without e log) p = replay start log p := by
  rw [replay, standing_without hgone, replay, List.filter_filter]
  congr 1
  apply List.filter_congr
  intro e' he'
  by_cases he : e' = e
  · subst he
    simp [hended he']
  · simp [without, EdgeEvent.edge, he]

end EdgeLog

end CellGraph
