import CellGraph.Proofs.Graph.Loops
import CellGraph.Proofs.Graph.Tour

/-!
# The shape of a trace

A trace has one line for each visit of a tour from its target (`Graph.formatTrace_exact`).  Each id that can be reached
from the target through inputs is shown in full once, at its first visit, and every other input that is met refers to
the level of that visit (`Trace.Toured`).  A line has three characters in front for each level above its own, and they
are made from those of the line it is below (`Trace.stem_concat`).
-/

open Relation (ReflTransGen)

namespace CellGraph

namespace Trace

/-! ### The lines in front of a place -/

/-- What leads to an input from the lines on its left. -/
def connector (last : Bool) : String := if last then "`--" else "|--"

/-- The lines in front of a place, as they go on below it: an input that is not the last one has a line further down. -/
def opened : List Char → List Char
  | '`' :: '-' :: '-' :: cs => ' ' :: ' ' :: ' ' :: opened cs
  | '|' :: '-' :: '-' :: cs => '|' :: ' ' :: ' ' :: opened cs
  | c :: cs => c :: opened cs
  | [] => []

private def rail (last : Bool) : String := if last then "   " else "|  "

private theorem stem_cons (last next : Bool) (branch : List Bool) :
    stem (last :: next :: branch) = rail last ++ stem (next :: branch) := by
  cases last <;> rfl

private theorem opened_rail (last : Bool) (cs : List Char) :
    opened ((rail last).toList ++ cs) = (rail last).toList ++ opened cs := by
  cases last <;> rfl

/-- The lines in front of an input are those of the cell it belongs to, opened, and a connector. -/
theorem stem_concat (branch : List Bool) (last : Bool) :
    (stem (branch ++ [last])).toList = opened (stem branch).toList ++ (connector last).toList := by
  induction branch with
  | nil => cases last <;> rfl
  | cons first branch ih =>
    cases branch with
    | nil => cases first <;> cases last <;> rfl
    | cons next branch =>
      rw [List.cons_append, List.cons_append, stem_cons, String.toList_append, ← List.cons_append, ih, stem_cons,
        String.toList_append, opened_rail, List.append_assoc]

/-- Three characters for each step from the top. -/
theorem length_stem (branch : List Bool) : (stem branch).length = 3 * branch.length := by
  fun_induction stem branch with
  | case1 => rfl
  | case2 => rfl
  | case3 => rfl
  | case4 branch _ ih =>
    rw [String.length_append, ih, List.length_cons]
    show 3 + _ = _
    omega
  | case5 branch _ ih =>
    rw [String.length_append, ih, List.length_cons]
    show 3 + _ = _
    omega

/-! ### Which ids are shown -/

variable {g : Graph} {seen : List (NodeId × Nat)} {target : NodeId} {start : List Place} {vs : List Visit}

theorem InTurn.left {P : List Visit → Visit → Prop} {ws : List Visit} (h : InTurn P (vs ++ ws)) : InTurn P vs := by
  intro before v after hvs
  exact h before v (after ++ ws) (by rw [hvs, List.append_assoc, List.cons_append])

theorem map_fst_shown (vs : List Visit) :
    (shown vs).map Prod.fst = (vs.filter (·.content.isFull)).map (·.place.id) := by
  induction vs with
  | nil => rfl
  | cons v vs ih =>
    rw [shown, List.flatMap_cons, ← shown, List.map_append, ih, List.filter_cons, Visit.marks]
    split <;> rfl

theorem mem_ids_shown {id : NodeId} :
    id ∈ (shown vs).map Prod.fst ↔ ∃ v ∈ vs, v.content.isFull = true ∧ v.place.id = id := by
  simp [map_fst_shown, and_assoc]

/-- An id that is visited is shown in full. -/
theorem InTurn.mem_ids_shown (h : InTurn (Turn g start) vs) {v : Visit} (hv : v ∈ vs) :
    v.place.id ∈ (shown vs).map Prod.fst := by
  obtain ⟨before, after, rfl⟩ := List.append_of_mem hv
  -- A reference is shown only to an id that was seen, and so was shown in full before.
  by_cases hfull : v.content.isFull = true
  · exact Trace.mem_ids_shown.2 ⟨v, hv, hfull, rfl⟩
  · rw [(h before v after rfl).content, Content.isFull_of, not_not, List.map_reverse, List.mem_reverse] at hfull
    rw [shown_append, List.map_append]
    exact List.mem_append_left _ hfull

namespace Tours

theorem nodup_shown (h : Tours g [] start vs seen) : ((shown vs).map Prod.fst).Nodup := by
  have hnodup := h.nodup_seen List.nodup_nil
  rwa [h.seen_eq, List.append_nil, List.map_reverse, List.nodup_reverse] at hnodup

/-- The inputs of an id that is shown in full are visited. -/
theorem exists_visit_of_input (h : Tours g [] start vs seen) {a b : NodeId} (ha : a ∈ (shown vs).map Prod.fst)
    (hb : b ∈ g.inputs a) : ∃ w ∈ vs, w.place.id = b := by
  obtain ⟨v, hv, hfull, rfl⟩ := mem_ids_shown.1 ha
  obtain ⟨i, hi, rfl⟩ := List.mem_iff_getElem.1 hb
  have hbelow := Visit.mem_below.2 ⟨hfull, i, hi, rfl⟩
  have hplace := h.perm_places.mem_iff.2 (List.mem_append_right start (List.mem_flatMap.2 ⟨v, hv, hbelow⟩))
  obtain ⟨w, hw, hwp⟩ := List.mem_map.1 hplace
  exact ⟨w, hw, congrArg Place.id hwp⟩

/-- A tour shows what can be reached from where it starts. -/
theorem mem_ids_shown_iff (h : Tours g [] [.top target] vs seen) {id : NodeId} :
    id ∈ (shown vs).map Prod.fst ↔ ReflTransGen (fun a b => b ∈ g.inputs a) target id := by
  constructor
  · intro hid
    obtain ⟨v, hv, -, rfl⟩ := mem_ids_shown.1 hid
    refine h.reachable (fun p hp => ?_) v hv
    rw [List.mem_singleton.1 hp]
    exact .refl
  · intro hpath
    induction hpath with
    | refl =>
      have htop := h.perm_places.mem_iff.2 (List.mem_append_left _ (List.mem_singleton_self (Place.top target)))
      obtain ⟨v, hv, hvp⟩ := List.mem_map.1 htop
      have := h.inTurn.mem_ids_shown hv
      rwa [hvp] at this
    | tail _ hb ih =>
      obtain ⟨w, hw, rfl⟩ := h.exists_visit_of_input ih hb
      exact h.inTurn.mem_ids_shown hw

/-! ### Which inputs are visited -/

theorem perm_origins (h : Tours g [] start vs seen) : (vs.map (·.place.origin)).Perm
    (start.map Place.origin ++ vs.flatMap fun v => (v.below g).map Place.origin) := by
  have hperm := h.perm_places.map Place.origin
  rwa [List.map_map, List.map_append, List.map_flatMap] at hperm

end Tours

/-- The inputs of an id that is shown in full, and where they are visited. -/
theorem Visit.map_origin_below (g : Graph) (v : Visit) : (v.below g).map Place.origin =
    if v.content.isFull then (List.range (g.inputs v.place.id).length).map fun i => some (v.place.id, i) else [] := by
  rw [below]
  split
  · exact Place.map_origin_below _ _
  · rfl

theorem Visit.mem_origins_below {v : Visit} {o : Option (NodeId × Nat)} : o ∈ (v.below g).map Place.origin ↔
    v.content.isFull = true ∧ ∃ i < (g.inputs v.place.id).length, o = some (v.place.id, i) := by
  rw [map_origin_below]
  by_cases hfull : v.content.isFull = true
  · simp [hfull, eq_comm]
  · simp [hfull]

namespace Tours

/-- Places are visited for the inputs of the ids that are shown, and at the start. -/
theorem mem_origins (h : Tours g [] [.top target] vs seen) {o : Option (NodeId × Nat)} :
    o ∈ vs.map (·.place.origin) ↔
      o = none ∨ ∃ a ∈ (shown vs).map Prod.fst, ∃ i < (g.inputs a).length, o = some (a, i) := by
  rw [h.perm_origins.mem_iff, List.mem_append, List.map_singleton, List.mem_singleton, List.mem_flatMap]
  refine or_congr_right ⟨?_, ?_⟩
  · rintro ⟨v, hv, ho⟩
    obtain ⟨hfull, hi⟩ := Visit.mem_origins_below.1 ho
    exact ⟨_, mem_ids_shown.2 ⟨v, hv, hfull, rfl⟩, hi⟩
  · rintro ⟨a, ha, hi⟩
    obtain ⟨v, hv, hfull, rfl⟩ := mem_ids_shown.1 ha
    exact ⟨v, hv, Visit.mem_origins_below.2 ⟨hfull, hi⟩⟩

/-- No input is visited twice. -/
theorem nodup_origins (h : Tours g [] [.top target] vs seen) : (vs.map (·.place.origin)).Nodup := by
  rw [h.perm_origins.nodup_iff, List.map_singleton, List.singleton_append, List.nodup_cons, List.nodup_flatMap]
  refine ⟨?_, ?_, ?_⟩
  · intro hnone
    obtain ⟨v, -, ho⟩ := List.mem_flatMap.1 hnone
    obtain ⟨-, i, -, ho⟩ := Visit.mem_origins_below.1 ho
    exact Option.some_ne_none _ ho.symm
  · intro v _
    rw [Visit.map_origin_below]
    split
    · exact List.nodup_range.map fun i j hij => (Prod.mk.inj (Option.some.inj hij)).2
    · exact List.nodup_nil
  · -- Places below two visits belong to different ids, since no id is shown in full twice.
    have hids := h.nodup_shown
    rw [List.Nodup, List.pairwise_map, shown, List.pairwise_flatMap] at hids
    refine hids.2.imp fun hne o ho ho' => ?_
    obtain ⟨hfull, i, -, rfl⟩ := Visit.mem_origins_below.1 ho
    obtain ⟨hfull', i', -, heq⟩ := Visit.mem_origins_below.1 ho'
    exact hne _ (Visit.mem_marks.2 ⟨hfull, rfl, rfl⟩) _ (Visit.mem_marks.2 ⟨hfull', rfl, rfl⟩)
      (Prod.mk.inj (Option.some.inj heq)).1

end Tours

/-! ### Traces -/

/-- A visit of the input at a position of an id that was shown before: one level down, and the lines in front go on from
those of that visit and lead to a last input exactly if it is the last one. -/
structure Visit.IsInput (g : Graph) (u v : Visit) (i : Nat) : Prop where
  origin : v.place.origin = some (u.place.id, i)
  id : (g.inputs u.place.id)[i]? = some v.place.id
  level : level v.place.branch = level u.place.branch + 1
  stem : (stem v.place.branch).toList =
    opened (stem u.place.branch).toList ++ (connector (i + 1 == (g.inputs u.place.id).length)).toList

theorem Visit.isInput_of_mem_below {u v : Visit} (h : v.place ∈ u.below g) :
    u.content.isFull = true ∧ ∃ i, u.IsInput g v i := by
  obtain ⟨hfull, i, hi, hplace⟩ := mem_below.1 h
  refine ⟨hfull, i, ?_, ?_, ?_, ?_⟩
  · rw [hplace]
  · rw [hplace, List.getElem?_eq_getElem hi]
  · rw [hplace, Trace.level, Trace.level, List.length_append, List.length_singleton]
  · rw [hplace, stem_concat]

/-- Visits that show all that can be reached from a target. -/
structure Toured (g : Graph) (target : NodeId) (vs : List Visit) : Prop where
  /-- An id is shown in full exactly if it can be reached, -/
  mem_shown : ∀ id, (∃ v ∈ vs, v.content.isFull = true ∧ v.place.id = id) ↔
    ReflTransGen (fun a b => b ∈ g.inputs a) target id
  /-- only once, -/
  shown_once : ((vs.filter (·.content.isFull)).map (·.place.id)).Nodup
  /-- at its first visit, -/
  shown_first : InTurn (fun before v => v.content.isFull = true ↔ ∀ u ∈ before, u.place.id ≠ v.place.id) vs
  /-- and as missing exactly if it is not a member. -/
  shown_full : ∀ v ∈ vs, v.content.isFull = true → v.content =
    match g.cell? v.place.id with
    | some c => .cell v.place.id c
    | none => .missing v.place.id
  /-- The inputs of what can be reached are visited, besides the top, -/
  mem_origins : ∀ o, o ∈ vs.map (·.place.origin) ↔
    o = none ∨ ∃ a, ReflTransGen (fun a b => b ∈ g.inputs a) target a ∧ ∃ i < (g.inputs a).length, o = some (a, i)
  /-- only once, -/
  origins_once : (vs.map (·.place.origin)).Nodup
  /-- each below the id it is an input of, which was shown in full before. -/
  below : InTurn (fun before v => v.place = .top target ∨
    ∃ u ∈ before, u.content.isFull = true ∧ ∃ i, u.IsInput g v i) vs
  /-- A reference is to the level at which the id was shown in full before. -/
  reference : InTurn (fun before v => ∀ n, v.content = .reference n →
    ∃ u ∈ before, u.content.isFull = true ∧ u.place.id = v.place.id ∧ level u.place.branch = n) vs

theorem Tours.toured (h : Tours g [] [.top target] vs seen) : Toured g target vs where
  mem_shown id := mem_ids_shown.symm.trans h.mem_ids_shown_iff
  shown_once := map_fst_shown vs ▸ h.nodup_shown
  shown_first := by
    intro before v after hvs
    have hbefore : InTurn (Turn g [.top target]) before := InTurn.left (hvs ▸ h.inTurn)
    rw [(h.inTurn before v after hvs).content, Content.isFull_of, List.map_reverse, List.mem_reverse]
    constructor
    · intro hnew u hu hid
      exact hnew (hid ▸ hbefore.mem_ids_shown hu)
    · intro hnew hmem
      obtain ⟨u, hu, -, hid⟩ := mem_ids_shown.1 hmem
      exact hnew u hu hid
  shown_full := by
    intro v hv hfull
    obtain ⟨before, after, hvs⟩ := List.append_of_mem hv
    have hcontent := (h.inTurn before v after hvs).content
    rw [hcontent] at hfull ⊢
    exact Content.eq_of_isFull hfull
  mem_origins o := by
    rw [h.mem_origins]
    simp only [h.mem_ids_shown_iff]
  origins_once := h.nodup_origins
  below := by
    intro before v after hvs
    rcases (h.inTurn before v after hvs).place with htop | ⟨u, hu, hbelow⟩
    · exact Or.inl (List.mem_singleton.1 htop)
    · exact Or.inr ⟨u, hu, Visit.isInput_of_mem_below hbelow⟩
  reference := by
    intro before v after hvs n hn
    have hcontent := (h.inTurn before v after hvs).content
    exact mem_shown.1 (List.mem_reverse.1 (Content.mem_of_reference (hcontent.symm.trans hn)))

/-- How the line of a visit begins: with three characters for each level above, and then with the level and the name of
a cell, or as missing, or it is a reference. -/
structure Visit.Written (g : Graph) (l : Ledger) (v : Visit) : Prop where
  indent : (stem v.place.branch).length = 3 * (Trace.level v.place.branch - 1)
  cell : ∀ id c, v.content = .cell id c → ∃ text, v.entry.line g l =
    stem v.place.branch ++ ("[L" ++ toString (Trace.level v.place.branch) ++ "] " ++ c.name ++ text)
  missing : ∀ id, v.content = .missing id → v.entry.line g l =
    stem v.place.branch ++ ("[L" ++ toString (Trace.level v.place.branch) ++ "] <missing " ++ id.text ++ ">")
  reference : ∀ n, v.content = .reference n → v.entry.line g l =
    stem v.place.branch ++ ("-> (Ref to L" ++ toString n ++ ")")

theorem Visit.written (g : Graph) (l : Ledger) (v : Visit) : v.Written g l where
  indent := by rw [length_stem, Trace.level, Nat.add_sub_cancel]
  cell id c hc := by
    refine ⟨outcomeText l id ++ ruleText g c ++ precisionText c.precision ++ fallbackText c.fallback, ?_⟩
    rw [Entry.line, entry, hc]
    simp only [String.append_assoc]
  missing id hid := by
    have hmark : "] <missing " = "] " ++ "<missing " := rfl
    rw [Entry.line, entry, hid, hmark]
    simp only [String.append_assoc]
  reference n hn := by
    rw [Entry.line, entry, hn]

end Trace

namespace Graph

open Trace (Tours Place Toured)

variable {g : Graph}

/-- The trace of a cell has two lines at the top and then one for each visit of the tour from the cell, which always
comes to an end, and in one way only; and the loop that makes the trace comes to an end with these visits. -/
theorem formatTrace_exact (l : Ledger) {target : NodeId} {c : Cell} (hc : g.cell? target = some c) :
    ∃ visits,
      (∃ seen, Tours g [] [.top target] visits seen) ∧
      (∀ visits' seen, Tours g [] [.top target] visits' seen → visits' = visits) ∧
      (∃ seen, Ends (Walking.next? g) ⟨[], [(target, [])], []⟩ ⟨seen, [], (visits.map Trace.Visit.entry).reverse⟩) ∧
      g.formatTrace l target = "AUDIT TRACE for node '" ++ c.name ++ "':\n" ++
        "--------------------------------------------------\n" ++
        String.join (visits.map fun v => v.entry.line g l ++ "\n") ∧
      Toured g target visits ∧
      ∀ v ∈ visits, v.Written g l := by
  obtain ⟨visits, seen, htour⟩ := Trace.exists_tours g [] [.top target]
  have hwalk : g.walk [] [(target, [])] = visits.map Trace.Visit.entry := htour.walk_eq
  refine ⟨visits, ⟨seen, htour⟩, ?_, ?_, ?_, htour.toured, fun v _ => v.written g l⟩
  · exact fun visits' seen' htour' => (htour'.unique htour).1
  · obtain ⟨seen, hends⟩ := g.ends_walk [] [(target, [])] []
    rw [List.append_nil, hwalk] at hends
    exact ⟨seen, hends⟩
  · rw [formatTrace, hc]
    simp only [hwalk, List.map_map]
    rfl

/-- A root with inputs that lead back to it, and to an id without a cell. -/
def looping : Graph := initial.modify ⟨0⟩ fun c => { c with inputs := [⟨0⟩, ⟨7⟩, ⟨7⟩] }

/-- A trace of a root that feeds itself. -/
theorem formatTrace_exact_of_looping :
    ∃ c visits, looping.cell? ⟨0⟩ = some c ∧ Toured looping ⟨0⟩ visits ∧
      looping.formatTrace (.ofOrder []) ⟨0⟩ = "AUDIT TRACE for node 'root':\n" ++
        "--------------------------------------------------\n" ++
        String.join (visits.map fun v => v.entry.line looping (.ofOrder []) ++ "\n") ∧
      visits.map Trace.Visit.entry =
        [⟨[], .cell ⟨0⟩ c⟩, ⟨[false], .reference 1⟩, ⟨[false], .missing ⟨7⟩⟩, ⟨[true], .reference 2⟩] := by
  have hroot : looping.cell? ⟨0⟩ = some _ := rfl
  have hseven : looping.cell? ⟨7⟩ = none := rfl
  obtain ⟨visits, ⟨seen, htour⟩, -, -, htext, htoured, -⟩ := formatTrace_exact (.ofOrder []) hroot
  refine ⟨_, visits, hroot, htoured, htext, ?_⟩
  rw [← htour.walk_eq]
  show looping.walk [] [(⟨0⟩, [])] = _
  rw [walk_of_cell rfl hroot]
  show _ :: looping.walk [(⟨0⟩, 1)] [(⟨0⟩, [false]), (⟨7⟩, [false]), (⟨7⟩, [true])] = _
  rw [walk_of_seen looping rfl, walk_of_missing rfl hseven, walk_of_seen looping rfl, walk]
  rfl

end Graph

end CellGraph
