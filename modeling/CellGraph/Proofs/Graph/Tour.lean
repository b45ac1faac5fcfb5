import CellGraph.Graph.Trace
import CellGraph.Proofs.Store.Views
import Mathlib.Logic.Relation

/-!
# Tours of a graph

A trace is made by a loop over a stack.  It lists what a tracer would list that calls itself for the places below each
place it visits (`Trace.Tours`): such a tour always comes to an end, in one way only (`exists_tours`, `Tours.unique`),
and the walk of the loop goes the same way (`Tours.walk_eq`).  A tour visits the places at which it starts and those
below the ids that it shows in full, each of them once (`Tours.perm_places`), and no id is shown in full twice
(`Tours.nodup_seen`).  What is shown at a place depends on the visits before (`Tours.inTurn`).  Inputs may lead round in a
circle or to ids without a cell.
-/

open Relation (ReflTransGen)

namespace CellGraph

namespace Trace

/-! ### Places and visits -/

/-- A place that is to be visited. -/
structure Place where
  /-- The input that is shown there, as the id that has it and its position.  The place at the top is no input. -/
  origin : Option (NodeId × Nat)
  id : NodeId
  branch : List Bool

namespace Place

def top (id : NodeId) : Place := ⟨none, id, []⟩

/-- The places of inputs below a place. -/
def below (p : Place) (inputs : List NodeId) : List Place :=
  inputs.mapIdx fun i id => ⟨some (p.id, i), id, p.branch ++ [i + 1 == inputs.length]⟩

/-- A place as a walk keeps it. -/
def key (p : Place) : NodeId × List Bool := (p.id, p.branch)

private theorem children_eq_mapIdx (branch : List Bool) (inputs : List NodeId) :
    children branch inputs = inputs.mapIdx fun i id => (id, branch ++ [i + 1 == inputs.length]) := by
  fun_induction children branch inputs with
  | case1 => rfl
  | case2 id => rfl
  | case3 id ids hne ih =>
    obtain ⟨id', ids, rfl⟩ := List.exists_cons_of_ne_nil hne
    rw [ih, List.mapIdx_cons (l := id' :: ids)]
    simp

theorem map_key_below (p : Place) (inputs : List NodeId) :
    (p.below inputs).map key = children p.branch inputs := by
  rw [children_eq_mapIdx, below]
  simp [List.mapIdx_eq_zipIdx_map, key]

theorem mem_below {p q : Place} {inputs : List NodeId} : q ∈ p.below inputs ↔
    ∃ i, ∃ h : i < inputs.length, q = ⟨some (p.id, i), inputs[i], p.branch ++ [i + 1 == inputs.length]⟩ := by
  simp only [below, List.mem_mapIdx, eq_comm]

theorem map_origin_below (p : Place) (inputs : List NodeId) :
    (p.below inputs).map origin = (List.range inputs.length).map fun i => some (p.id, i) := by
  apply List.ext_getElem
  · simp [below]
  · simp [below]

end Place

variable {g : Graph} {seen : List (NodeId × Nat)} {id : NodeId}

/-- What is shown of an id: a reference to the level at which it was seen, or else the id itself. -/
def Content.of (g : Graph) (seen : List (NodeId × Nat)) (id : NodeId) : Content :=
  match seen.lookup id with
  | some level => .reference level
  | none =>
    match g.cell? id with
    | some c => .cell id c
    | none => .missing id

/-- Whether an id is shown in full or, without a cell, as missing. -/
def Content.isFull : Content → Bool
  | .reference _ => false
  | .missing _ | .cell _ _ => true

namespace Content

theorem mem_of_reference {n : Nat} (h : of g seen id = .reference n) : (id, n) ∈ seen := by
  rw [of] at h
  split at h
  · rename_i level hseen
    obtain rfl := reference.inj h
    obtain ⟨before, after, rfl, -⟩ := List.lookup_eq_some_iff.1 hseen
    exact List.mem_append_right _ List.mem_cons_self
  · split at h <;> cases h

/-- An id is shown in full if it was not seen. -/
theorem isFull_of : (of g seen id).isFull = true ↔ id ∉ seen.map Prod.fst := by
  constructor
  · intro hfull hmem
    obtain ⟨e, he, rfl⟩ := List.mem_map.1 hmem
    obtain ⟨level, hlevel⟩ := Option.isSome_iff_exists.1 (List.lookup_isSome_iff.2 ⟨e, he, BEq.rfl⟩)
    rw [of, hlevel] at hfull
    exact Bool.false_ne_true hfull
  · intro hnew
    rcases hof : of g seen id with n | i | ⟨i, c⟩
    · exact absurd (List.mem_map_of_mem (mem_of_reference hof)) hnew
    · rfl
    · rfl

/-- What is shown in full does not depend on what was seen. -/
theorem eq_of_isFull (h : (of g seen id).isFull = true) : of g seen id = of g [] id := by
  rw [of] at h ⊢
  split at h
  · exact absurd h Bool.false_ne_true
  · rfl

end Content

/-- A place with what a tracer shows there. -/
structure Visit where
  place : Place
  content : Content

namespace Visit

def entry (v : Visit) : Entry := ⟨v.place.branch, v.content⟩

/-- What a tracer keeps of a visit: an id that is shown in full, with its level. -/
def marks (v : Visit) : List (NodeId × Nat) :=
  if v.content.isFull then [(v.place.id, level v.place.branch)] else []

/-- The places below that are visited next: those of the inputs of an id that is shown in full. -/
def below (g : Graph) (v : Visit) : List Place :=
  if v.content.isFull then v.place.below (g.inputs v.place.id) else []

theorem mem_below {v : Visit} {q : Place} : q ∈ v.below g ↔ v.content.isFull = true ∧
    ∃ i, ∃ h : i < (g.inputs v.place.id).length, q =
      ⟨some (v.place.id, i), (g.inputs v.place.id)[i], v.place.branch ++ [i + 1 == (g.inputs v.place.id).length]⟩ := by
  rw [below]
  by_cases hfull : v.content.isFull = true
  · rw [if_pos hfull, Place.mem_below]
    exact (and_iff_right hfull).symm
  · rw [if_neg hfull]
    exact iff_of_false List.not_mem_nil fun h => hfull h.1

theorem mem_inputs_of_mem_below {v : Visit} {q : Place} (h : q ∈ v.below g) : q.id ∈ g.inputs v.place.id := by
  obtain ⟨-, i, hi, rfl⟩ := mem_below.1 h
  exact List.getElem_mem hi

end Visit

/-- A visit of a place after some ids were seen. -/
def Place.visit (g : Graph) (seen : List (NodeId × Nat)) (p : Place) : Visit := ⟨p, .of g seen p.id⟩

/-- The visits of a tracer to places, one after the other: after each place it visits all that are below it, by calling
itself, and only then goes on.  On the way the ids that were seen change. -/
inductive Tours (g : Graph) : List (NodeId × Nat) → List Place → List Visit → List (NodeId × Nat) → Prop
  | done {seen : List (NodeId × Nat)} : Tours g seen [] [] seen
  | visit {seen seen₁ seen₂ : List (NodeId × Nat)} {p : Place} {ps : List Place} {inner outer : List Visit} :
    Tours g ((p.visit g seen).marks ++ seen) ((p.visit g seen).below g) inner seen₁ →
    Tours g seen₁ ps outer seen₂ →
    Tours g seen (p :: ps) (p.visit g seen :: inner ++ outer) seen₂

variable {seen' : List (NodeId × Nat)} {ps : List Place} {vs : List Visit} {p : Place}

/-! ### One visit -/

namespace Place

theorem visit_of_seen {level : Nat} (hseen : seen.lookup p.id = some level) :
    p.visit g seen = ⟨p, .reference level⟩ := by
  rw [visit, Content.of, hseen]

theorem visit_of_missing (hseen : seen.lookup p.id = none) (hc : g.cell? p.id = none) :
    p.visit g seen = ⟨p, .missing p.id⟩ := by
  rw [visit, Content.of, hseen, hc]

theorem visit_of_cell {c : Cell} (hseen : seen.lookup p.id = none) (hc : g.cell? p.id = some c) :
    p.visit g seen = ⟨p, .cell p.id c⟩ := by
  rw [visit, Content.of, hseen, hc]

theorem below_visit_of_missing (hseen : seen.lookup p.id = none) (hc : g.cell? p.id = none) :
    (p.visit g seen).below g = [] := by
  have hinputs : g.inputs p.id = [] := Store.inputs_of_not_mem (Store.cell?_eq_none.1 hc)
  rw [visit_of_missing hseen hc, Visit.below, hinputs]
  rfl

theorem below_visit_of_cell {c : Cell} (hseen : seen.lookup p.id = none) (hc : g.cell? p.id = some c) :
    (p.visit g seen).below g = p.below c.inputs := by
  have hinputs : g.inputs p.id = c.inputs := Store.inputs_of_cell? hc
  rw [visit_of_cell hseen hc, Visit.below, hinputs]
  rfl

end Place

/-- One turn of the loop is a visit, and the places below it come on the stack. -/
theorem walk_key_cons (g : Graph) (seen : List (NodeId × Nat)) (p : Place) (rest : List (NodeId × List Bool)) :
    g.walk seen (p.key :: rest) = (p.visit g seen).entry ::
      g.walk ((p.visit g seen).marks ++ seen) (((p.visit g seen).below g).map Place.key ++ rest) := by
  rcases hseen : seen.lookup p.id with _ | level
  · rcases hc : g.cell? p.id with _ | c
    · rw [Place.below_visit_of_missing hseen hc, Place.visit_of_missing hseen hc]
      exact Graph.walk_of_missing hseen hc
    · rw [Place.below_visit_of_cell hseen hc, Place.visit_of_cell hseen hc, Place.map_key_below]
      exact Graph.walk_of_cell hseen hc
  · rw [Place.visit_of_seen hseen]
    exact Graph.walk_of_seen g hseen

/-! ### Whole tours -/

/-- A walk goes as a tour goes, and then on to the other places. -/
theorem Tours.walk_append (h : Tours g seen ps vs seen') (rest : List (NodeId × List Bool)) :
    g.walk seen (ps.map Place.key ++ rest) = vs.map Visit.entry ++ g.walk seen' rest := by
  induction h generalizing rest with
  | done => rfl
  | visit _ _ ihinner ihouter =>
    rw [List.map_cons, List.cons_append, walk_key_cons, ihinner, ihouter, List.cons_append, List.map_cons,
      List.map_append, List.cons_append, List.append_assoc]

theorem Tours.walk_eq (h : Tours g seen ps vs seen') : g.walk seen (ps.map Place.key) = vs.map Visit.entry := by
  have hwalk := h.walk_append []
  rwa [List.append_nil, Graph.walk, List.append_nil] at hwalk

/-- A tracer goes one way only. -/
theorem Tours.unique {vs' : List Visit} {seen'' : List (NodeId × Nat)} (h : Tours g seen ps vs seen')
    (h' : Tours g seen ps vs' seen'') : vs = vs' ∧ seen' = seen'' := by
  induction h generalizing vs' seen'' with
  | done =>
    cases h'
    exact ⟨rfl, rfl⟩
  | visit _ _ ihinner ihouter =>
    rcases h' with _ | ⟨hinner, houter⟩
    obtain ⟨rfl, rfl⟩ := ihinner hinner
    obtain ⟨rfl, rfl⟩ := ihouter houter
    exact ⟨rfl, rfl⟩

/-- A tour of some places and then others stops between them. -/
theorem Tours.append_inv {qs : List Place} (h : Tours g seen (ps ++ qs) vs seen') :
    ∃ us ws mid, Tours g seen ps us mid ∧ Tours g mid qs ws seen' := by
  induction ps generalizing seen vs with
  | nil => exact ⟨[], vs, seen, .done, h⟩
  | cons p ps ih =>
    rcases h with _ | ⟨hinner, houter⟩
    obtain ⟨us, ws, mid, hps, hqs⟩ := ih houter
    exact ⟨_, ws, mid, .visit hinner hps, hqs⟩

private theorem exists_tours_cons (h : ∃ vs seen', Tours g ((p.visit g seen).marks ++ seen)
    ((p.visit g seen).below g ++ ps) vs seen') : ∃ vs seen', Tours g seen (p :: ps) vs seen' := by
  obtain ⟨vs, seen', h⟩ := h
  obtain ⟨us, ws, mid, hinner, houter⟩ := h.append_inv
  exact ⟨_, seen', .visit hinner houter⟩

/-- A tour comes to an end, whatever the inputs are. -/
theorem exists_tours (g : Graph) (seen : List (NodeId × Nat)) (ps : List Place) :
    ∃ vs seen', Tours g seen ps vs seen' := by
  -- The recursion of the walk, which ends as ever fewer ids are unseen, has one call where a tracer makes two.
  generalize hplaces : ps.map Place.key = places
  fun_induction Graph.walk g seen places generalizing ps with
  | case1 seen =>
    obtain rfl := List.map_eq_nil_iff.1 hplaces
    exact ⟨[], seen, .done⟩
  | case2 seen id branch places level hseen ih =>
    obtain ⟨p, ps, rfl, hp, rfl⟩ := List.map_eq_cons_iff.1 hplaces
    obtain ⟨rfl, rfl⟩ := Prod.mk.inj hp
    apply exists_tours_cons
    rw [Place.visit_of_seen hseen]
    exact ih ps rfl
  | case3 seen id branch places hseen hc ih =>
    obtain ⟨p, ps, rfl, hp, rfl⟩ := List.map_eq_cons_iff.1 hplaces
    obtain ⟨rfl, rfl⟩ := Prod.mk.inj hp
    apply exists_tours_cons
    rw [Place.below_visit_of_missing hseen hc, Place.visit_of_missing hseen hc]
    exact ih ps rfl
  | case4 seen id branch places hseen c hc _ ih =>
    obtain ⟨p, ps, rfl, hp, rfl⟩ := List.map_eq_cons_iff.1 hplaces
    obtain ⟨rfl, rfl⟩ := Prod.mk.inj hp
    apply exists_tours_cons
    rw [Place.below_visit_of_cell hseen hc, Place.visit_of_cell hseen hc]
    exact ih _ (by rw [List.map_append, Place.map_key_below])

/-! ### What a tour shows -/

/-- The ids that are shown in full, with their levels. -/
def shown (vs : List Visit) : List (NodeId × Nat) := vs.flatMap Visit.marks

theorem shown_append (vs ws : List Visit) : shown (vs ++ ws) = shown vs ++ shown ws := List.flatMap_append

theorem Visit.mem_marks {v : Visit} {id : NodeId} {n : Nat} : (id, n) ∈ v.marks ↔
    v.content.isFull = true ∧ v.place.id = id ∧ level v.place.branch = n := by
  rw [marks]
  by_cases hfull : v.content.isFull = true
  · rw [if_pos hfull, List.mem_singleton, Prod.mk.injEq, eq_comm, eq_comm (a := n)]
    exact (and_iff_right hfull).symm
  · rw [if_neg hfull]
    exact iff_of_false List.not_mem_nil fun h => hfull h.1

theorem mem_shown {id : NodeId} {n : Nat} : (id, n) ∈ shown vs ↔
    ∃ v ∈ vs, v.content.isFull = true ∧ v.place.id = id ∧ level v.place.branch = n := by
  simp only [shown, List.mem_flatMap, Visit.mem_marks]

private theorem reverse_marks (v : Visit) : v.marks.reverse = v.marks := by
  rw [Visit.marks]
  split <;> rfl

/-- A tracer keeps what it showed, the last id first. -/
theorem Tours.seen_eq (h : Tours g seen ps vs seen') : seen' = (shown vs).reverse ++ seen := by
  induction h with
  | done => rfl
  | visit _ _ ihinner ihouter =>
    rw [ihouter, ihinner]
    simp [shown, reverse_marks]

/-- Places are visited once: those at the start, and those below the visits. -/
theorem Tours.perm_places (h : Tours g seen ps vs seen') :
    (vs.map Visit.place).Perm (ps ++ vs.flatMap (Visit.below g)) := by
  induction h with
  | done => exact .nil
  | @visit seen _ _ p ps inner outer _ _ ihinner ihouter =>
    rw [List.map_append, List.map_cons, List.flatMap_append, List.flatMap_cons, List.cons_append, List.cons_append]
    exact .cons p ((ihinner.append ihouter).trans (List.perm_append_comm_assoc _ _ _))

/-- No id is shown in full twice. -/
theorem Tours.nodup_seen (h : Tours g seen ps vs seen') (hseen : (seen.map Prod.fst).Nodup) :
    (seen'.map Prod.fst).Nodup := by
  induction h with
  | done => exact hseen
  | @visit seen _ _ p _ _ _ _ _ ihinner ihouter =>
    refine ihouter (ihinner ?_)
    rw [Visit.marks]
    split
    · rename_i hfull
      exact List.nodup_cons.2 ⟨Content.isFull_of.1 hfull, hseen⟩
    · exact hseen

/-- Only what is reachable is visited. -/
theorem Tours.reachable (h : Tours g seen ps vs seen') {target : NodeId}
    (hps : ∀ p ∈ ps, ReflTransGen (fun a b => b ∈ g.inputs a) target p.id) :
    ∀ v ∈ vs, ReflTransGen (fun a b => b ∈ g.inputs a) target v.place.id := by
  induction h with
  | done => exact fun v hv => absurd hv List.not_mem_nil
  | @visit seen _ _ p ps inner outer _ _ ihinner ihouter =>
    have hp := hps p List.mem_cons_self
    have hinner := ihinner fun q hq => hp.tail (Visit.mem_inputs_of_mem_below hq)
    have houter := ihouter fun q hq => hps q (List.mem_cons_of_mem _ hq)
    intro v hv
    rcases List.mem_append.1 hv with hv | hv
    · rcases List.mem_cons.1 hv with rfl | hv
      · exact hp
      · exact hinner v hv
    · exact houter v hv

/-! ### The turns of a tour -/

/-- Whether something holds of each visit and those before it. -/
def InTurn (P : List Visit → Visit → Prop) (vs : List Visit) : Prop :=
  ∀ before v after, vs = before ++ v :: after → P before v

theorem inTurn_nil (P : List Visit → Visit → Prop) : InTurn P [] := by
  intro before v after h
  exact absurd h.symm (List.append_ne_nil_of_right_ne_nil _ (List.cons_ne_nil _ _))

theorem inTurn_cons {P : List Visit → Visit → Prop} {v : Visit} (hv : P [] v)
    (hvs : InTurn (fun before => P (v :: before)) vs) : InTurn P (v :: vs) := by
  intro before u after h
  rcases List.cons_eq_append_iff.1 h with ⟨rfl, hu⟩ | ⟨before, rfl, hvs'⟩
  · obtain ⟨rfl, -⟩ := List.cons.inj hu
    exact hv
  · exact hvs before u after hvs'

theorem inTurn_append {P : List Visit → Visit → Prop} {ws : List Visit} (hvs : InTurn P vs)
    (hws : InTurn (fun before => P (vs ++ before)) ws) : InTurn P (vs ++ ws) := by
  induction vs generalizing P with
  | nil => exact hws
  | cons v vs ih =>
    refine inTurn_cons (hvs [] v vs rfl) (ih ?_ hws)
    intro before u after h
    exact hvs (v :: before) u after (by rw [h, List.cons_append])

/-- A turn of a tour: a place where it started or below a visit that was made before, and what the ids that were shown
by then leave to show there. -/
structure Turn (g : Graph) (start : List Place) (before : List Visit) (v : Visit) : Prop where
  place : v.place ∈ start ∨ ∃ u ∈ before, v.place ∈ u.below g
  content : v.content = .of g (shown before).reverse v.place.id

theorem Tours.inTurn_from (h : Tours g seen ps vs seen') {start : List Place} {past : List Visit}
    (hseen : seen = (shown past).reverse) (hps : ∀ p ∈ ps, p ∈ start ∨ ∃ u ∈ past, p ∈ u.below g) :
    InTurn (fun before => Turn g start (past ++ before)) vs := by
  -- A call is made with its places below a visit that was just made, so `past` grows on the way in.
  induction h generalizing past with
  | done => exact inTurn_nil _
  | @visit seen _ _ p ps inner outer hinner _ ihinner ihouter =>
    have hmarks : (p.visit g seen).marks ++ seen = (shown (past ++ [p.visit g seen])).reverse := by
      rw [shown_append, List.reverse_append, ← hseen]
      simp [shown, reverse_marks]
    have hvisit : Turn g start (past ++ []) (p.visit g seen) := by
      rw [List.append_nil]
      exact ⟨hps p List.mem_cons_self, by rw [← hseen]; rfl⟩
    have hbelow : InTurn (fun before => Turn g start (past ++ p.visit g seen :: before)) inner := by
      have := ihinner hmarks fun q hq => Or.inr ⟨_, List.mem_append_right _ List.mem_cons_self, hq⟩
      simpa only [List.append_assoc, List.singleton_append] using this
    have hrest : InTurn (fun before => Turn g start (past ++ (p.visit g seen :: inner ++ before))) outer := by
      have hmid := hinner.seen_eq
      rw [hmarks, ← List.reverse_append, ← shown_append] at hmid
      have := ihouter hmid ?_
      · simpa only [List.append_assoc, List.cons_append, List.nil_append] using this
      · intro q hq
        rcases hps q (List.mem_cons_of_mem _ hq) with hstart | ⟨u, hu, hq⟩
        · exact Or.inl hstart
        · exact Or.inr ⟨u, by simp [hu], hq⟩
    exact inTurn_append (inTurn_cons hvisit hbelow) hrest

/-- A tour that starts from nothing goes turn by turn. -/
theorem Tours.inTurn (h : Tours g [] ps vs seen') : InTurn (Turn g ps) vs := by
  have hturns : InTurn (fun before => Turn g ps ([] ++ before)) vs := h.inTurn_from rfl fun _ hp => Or.inl hp
  exact hturns

end Trace

end CellGraph
