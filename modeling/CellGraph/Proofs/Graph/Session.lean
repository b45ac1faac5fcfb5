import CellGraph.Proofs.Graph.Answers

/-!
# Observing graphs

A caller has graphs and cells in hand, in numbered places, and makes calls on them one after the other (`Session.act`).
Cells go from a graph to a place and back, are copied and are put in the place of others, with the programs that they
keep.  Calls that only observe a graph can be made in between, as many as one likes: no other call gives another answer
for it, and in the end nothing differs but what was compiled of the cells (`Session.observation_invisible`).
-/

namespace CellGraph

/-- The graphs and the cells that a caller has in hand. -/
structure Session where
  graphs : Nat → Graph
  cells : Nat → Cell

/-- What a caller can do with what is in the places. -/
inductive Act where
  | newGraph (place : Nat) (config : Config)
  | copyGraph (source place : Nat)
  /-- A call that brings in no cell. -/
  | call (graph : Nat) (call : Graph.Call) (own : call.adds = false)
  /-- The value of the root, of all that an evaluation gives. -/
  | value (graph : Nat)
  | view (graph : Nat) (view : Graph.View)
  /-- Puts a cell in hand into a graph, under its own id. -/
  | add (graph cell : Nat)
  /-- Takes a cell out of a graph and keeps it. -/
  | remove (graph : Nat) (id : NodeId) (place : Nat)
  | copyOut (graph : Nat) (id : NodeId) (place : Nat)
  /-- Puts a cell in hand in the place of the one under an id. -/
  | assign (graph : Nat) (id : NodeId) (cell : Nat)
  | callCell (cell : Nat) (call : Cell.Call)
  | copyCell (source place : Nat)
  | record (cell : Nat)
  /-- Whether two cells in hand have the same configuration. -/
  | sameConfig (cell other : Nat)

namespace Session

/-- A new graph is in every place for a graph, and a new cell in every place for a cell. -/
def start : Session := ⟨fun _ => .initial, fun _ => .bare ⟨0⟩ "root"⟩

def setGraph (s : Session) (i : Nat) (g : Graph) : Session :=
  { s with graphs := fun j => if j = i then g else s.graphs j }

def setCell (s : Session) (k : Nat) (c : Cell) : Session := { s with cells := fun l => if l = k then c else s.cells l }

/-- What a caller is told, and what is in the places afterwards. -/
def act (s : Session) : Act → Answer × Session
  | .newGraph i config => (.done, s.setGraph i (.ofConfig config))
  | .copyGraph i j => (.done, s.setGraph j (s.graphs i))
  | .call i call _ => (call.answer (s.graphs i), s.setGraph i (call.apply (s.graphs i)))
  | .value i => (.value (s.graphs i).value?, s.setGraph i (s.graphs i).evaluate.2)
  | .view i view => (view.read (s.graphs i), s)
  | .add i k =>
    let call := Graph.Call.add (s.cells k)
    (call.answer (s.graphs i), s.setGraph i (call.apply (s.graphs i)))
  | .remove i id k =>
    match (s.graphs i).remove id with
    | .ok (c, g) => (.removed (.ok (.ofCell c)), (s.setGraph i g).setCell k c)
    | .error e => (.removed (.error e), s)
  | .copyOut i id k =>
    match (s.graphs i).cell? id with
    | some c => (.done, s.setCell k c)
    | none => (.absent, s)
  | .assign i id k =>
    (if (s.graphs i).contains id then .done else .absent,
      s.setGraph i ((s.graphs i).modify id fun _ => s.cells k))
  | .callCell k call => (call.answer (s.cells k), s.setCell k (call.apply (s.cells k)))
  | .copyCell k l => (.done, s.setCell l (s.cells k))
  | .record k => (.record (.ofCell (s.cells k)), s)
  | .sameConfig k l => (.truth ((s.cells k).sameConfig (s.cells l)), s)

/-- The answers of several acts, and what is in the places after them. -/
def run : List Act → Session → List Answer × Session
  | [], s => ([], s)
  | a :: acts, s => ((s.act a).1 :: (run acts (s.act a).2).1, (run acts (s.act a).2).2)

/-! ### Programs are up to date -/

/-- Every cell in hand or in a graph is reachable. -/
structure Sound (s : Session) : Prop where
  graphs : ∀ i, Graph.AllReachable (s.graphs i).store
  cells : ∀ k, (s.cells k).Reachable

theorem sound_start : start.Sound := ⟨fun _ => Graph.allReachable_ofConfig .standard, fun _ => .bare ⟨0⟩ "root"⟩

namespace Sound

variable {s : Session}

theorem upToDate (h : s.Sound) (i : Nat) : (s.graphs i).UpToDate := fun id c hc => (h.graphs i id c hc).upToDate

theorem setGraph (h : s.Sound) (i : Nat) {g : Graph} (hg : Graph.AllReachable g.store) : (s.setGraph i g).Sound := by
  refine ⟨fun j => ?_, h.cells⟩
  simp only [Session.setGraph]
  split
  · exact hg
  · exact h.graphs j

theorem setCell (h : s.Sound) (k : Nat) {c : Cell} (hc : c.Reachable) : (s.setCell k c).Sound := by
  refine ⟨h.graphs, fun l => ?_⟩
  simp only [Session.setCell]
  split
  · exact hc
  · exact h.cells l

/-- An act brings in no cell that cannot come about. -/
theorem act (h : s.Sound) (a : Act) : (s.act a).2.Sound := by
  cases a with
  | newGraph i config => exact h.setGraph i (Graph.allReachable_ofConfig config)
  | copyGraph i j => exact h.setGraph j (h.graphs i)
  | call i call hown =>
    refine h.setGraph i (Graph.kept_allReachable.apply (h.graphs i) call fun c hc => ?_)
    rw [hc] at hown
    exact Bool.noConfusion hown
  | value i => exact h.setGraph i (Graph.kept_allReachable.evaluate (h.graphs i))
  | view i view => exact h
  | add i k =>
    refine h.setGraph i (Graph.kept_allReachable.apply (h.graphs i) _ fun c hc => ?_)
    exact Graph.Call.add.inj hc ▸ h.cells k
  | remove i id k =>
    simp only [Session.act]
    split
    · rename_i c g hremove
      obtain ⟨hid, d, hd, rfl, rfl⟩ := Graph.remove_eq_ok hremove
      exact (h.setGraph i (Graph.kept_allReachable.detach (h.graphs i) hid)).setCell k (h.graphs i id d hd).clearInputs
    · exact h
  | copyOut i id k =>
    simp only [Session.act]
    split
    · rename_i c hc
      exact h.setCell k (h.graphs i id c hc)
    · exact h
  | assign i id k => exact h.setGraph i (Graph.AllReachable.modify (h.graphs i) fun _ _ _ => h.cells k)
  | callCell k call => exact h.setCell k ((h.cells k).call call)
  | copyCell k l => exact h.setCell l (h.cells k)
  | record k => exact h
  | sameConfig k l => exact h

end Sound

/-! ### Sessions without programs -/

/-- What is in the places, as if nothing had ever been compiled. -/
def forget (s : Session) : Session := ⟨fun i => (s.graphs i).forget, fun k => (s.cells k).forget⟩

/-- Two sessions that differ at most in what was compiled. -/
structure Like (s t : Session) : Prop where
  graphs : ∀ i, (s.graphs i).Like (t.graphs i)
  cells : ∀ k, (s.cells k).forget = (t.cells k).forget

namespace Like

variable {s t : Session}

theorem refl (s : Session) : s.Like s := ⟨fun _ => .refl _, fun _ => rfl⟩

theorem trans {u : Session} (hst : s.Like t) (htu : t.Like u) : s.Like u :=
  ⟨fun i => (hst.graphs i).trans (htu.graphs i), fun k => (hst.cells k).trans (htu.cells k)⟩

theorem forget (h : s.Like t) : s.forget = t.forget := by
  unfold Session.forget
  simp only [fun i => (h.graphs i).forget, h.cells]

theorem setGraph (h : s.Like t) (i : Nat) {g k : Graph} (hgk : g.Like k) : (s.setGraph i g).Like (t.setGraph i k) := by
  refine ⟨fun j => ?_, h.cells⟩
  simp only [Session.setGraph]
  split
  · exact hgk
  · exact h.graphs j

theorem setCell (h : s.Like t) (k : Nat) {c d : Cell} (hcd : c.forget = d.forget) :
    (s.setCell k c).Like (t.setCell k d) := by
  refine ⟨h.graphs, fun l => ?_⟩
  simp only [Session.setCell]
  split
  · exact hcd
  · exact h.cells l

/-- An act has the same answer in sessions that differ at most in what was compiled, and keeps them so. -/
theorem act (h : s.Like t) (hs : s.Sound) (ht : t.Sound) (a : Act) :
    (s.act a).1 = (t.act a).1 ∧ (s.act a).2.Like (t.act a).2 := by
  cases a with
  | newGraph i config => exact ⟨rfl, h.setGraph i (.refl _)⟩
  | copyGraph i j => exact ⟨rfl, h.setGraph j (h.graphs i)⟩
  | call i call hown =>
    have hcall := call.answer_congr hown (h.graphs i) (hs.upToDate i) (ht.upToDate i)
    exact ⟨hcall.1, h.setGraph i hcall.2⟩
  | value i =>
    have hcall := Graph.Call.answer_congr .evaluate rfl (h.graphs i) (hs.upToDate i) (ht.upToDate i)
    have hvalue : (s.graphs i).value? = (t.graphs i).value? := congrArg Ledger.result? (Answer.ledger.inj hcall.1)
    exact ⟨congrArg Answer.value hvalue, h.setGraph i hcall.2⟩
  | view i view => exact ⟨view.read_congr (h.graphs i), h⟩
  | add i k =>
    have hcall := (h.graphs i).answer_add (h.cells k)
    exact ⟨hcall.1, h.setGraph i hcall.2⟩
  | remove i id k =>
    unfold Session.act
    rcases (h.graphs i).remove_cases id with ⟨e, hg, hk⟩ | ⟨c, d, g, g', hg, hk, hcd, hlike⟩
    · simp only [hg, hk]
      exact ⟨trivial, h⟩
    · simp only [hg, hk, Cell.record_of_forget hcd]
      exact ⟨trivial, (h.setGraph i hlike).setCell k hcd⟩
  | copyOut i id k =>
    unfold Session.act
    rcases (h.graphs i).store.cell_cases id with ⟨hg, hk⟩ | ⟨c, d, hg, hk, hcd⟩
    · simp only [Graph.cell?, hg, hk]
      exact ⟨trivial, h⟩
    · simp only [Graph.cell?, hg, hk]
      exact ⟨trivial, h.setCell k hcd⟩
  | assign i id k =>
    have hg := h.graphs i
    refine ⟨?_, h.setGraph i ⟨hg.store.assign (h.cells k) id, hg.root, hg.config⟩⟩
    show (if (s.graphs i).store.contains id then Answer.done else .absent) = _
    rw [hg.store.contains]
    rfl
  | callCell k call =>
    exact ⟨call.answer_congr (hs.cells k).upToDate (ht.cells k).upToDate (h.cells k),
      h.setCell k (call.blind.congr (h.cells k))⟩
  | copyCell k l => exact ⟨rfl, h.setCell l (h.cells k)⟩
  | record k => exact ⟨congrArg Answer.record (Cell.record_of_forget (h.cells k)), h⟩
  | sameConfig k l => exact ⟨congrArg Answer.truth (Cell.sameConfig_of_forget (h.cells k) (h.cells l)), h⟩

end Like

end Session

/-! ### Observing -/

/-- A call on a graph that is made only for its answer. -/
inductive Observation where
  | value
  | ledger
  | diagnostics
  | trace (id : NodeId)
  /-- Among the views are the document, its text and the order. -/
  | view (view : Graph.View)
  | compile (id : NodeId)
  | evaluate (id : NodeId) (l : Ledger)

/-- An observation of the graph in a place. -/
def Observation.act (graph : Nat) : Observation → Act
  | .value => .value graph
  | .ledger => .call graph .evaluate rfl
  | .diagnostics => .call graph .diagnostics rfl
  | .trace id => .call graph (.trace id) rfl
  | .view v => .view graph v
  | .compile id => .call graph (.onCell id .compile) rfl
  | .evaluate id l => .call graph (.onCell id (.evaluate l)) rfl

/-- An act of the caller's own, or an observation that is put in. -/
inductive Step where
  | own (a : Act)
  | extra (graph : Nat) (o : Observation)

namespace Step

def act : Step → Act
  | .own a => a
  | .extra graph o => o.act graph

/-- The acts without the observations that were put in. -/
def ownActs : List Step → List Act
  | [] => []
  | .own a :: steps => a :: ownActs steps
  | .extra _ _ :: steps => ownActs steps

/-- The answers without those of the observations that were put in. -/
def ownAnswers : List Step → List Answer → List Answer
  | .own _ :: steps, answer :: answers => answer :: ownAnswers steps answers
  | .extra _ _ :: steps, _ :: answers => ownAnswers steps answers
  | _, _ => []

end Step

namespace Session

theorem like_setGraph {s : Session} {i : Nat} {g : Graph} (hg : g.Like (s.graphs i)) : (s.setGraph i g).Like s := by
  refine ⟨fun j => ?_, fun _ => rfl⟩
  simp only [setGraph]
  split
  · rename_i hj
    exact hj ▸ hg
  · exact .refl _

/-- An observation changes nothing but what was compiled. -/
theorem like_observe (s : Session) (i : Nat) (o : Observation) : (s.act (o.act i)).2.Like s := by
  cases o with
  | value => exact like_setGraph (Graph.like_evaluate _)
  | ledger => exact like_setGraph (Graph.Call.like_apply .evaluate rfl _)
  | diagnostics => exact like_setGraph (Graph.Call.like_apply .diagnostics rfl _)
  | trace id => exact like_setGraph (Graph.Call.like_apply (.trace id) rfl _)
  | view v => exact .refl s
  | compile id => exact like_setGraph (Graph.Call.like_apply (.onCell id .compile) rfl _)
  | evaluate id l => exact like_setGraph (Graph.Call.like_apply (.onCell id (.evaluate l)) rfl _)

/-- What was compiled does change: the root of a new graph has no input that it could pass through. -/
example : ((start.graphs 0).cell? ⟨0⟩).map (·.state) = some .stale ∧
    (((start.act (Observation.diagnostics.act 0)).2.graphs 0).cell? ⟨0⟩).map (·.state) =
      some (.failed (.unresolvedReference "$1")) := by
  decide

/-- Sessions that differ at most in what was compiled give the same answers to a caller's own acts, in the one with
observations in between and in the other one without. -/
theorem Like.run {s t : Session} (h : s.Like t) (hs : s.Sound) (ht : t.Sound) (steps : List Step) :
    Step.ownAnswers steps (Session.run (steps.map Step.act) s).1 = (Session.run (Step.ownActs steps) t).1 ∧
      (Session.run (steps.map Step.act) s).2.Like (Session.run (Step.ownActs steps) t).2 := by
  induction steps generalizing s t with
  | nil => exact ⟨rfl, h⟩
  | cons step steps ih =>
    -- an own act is a step of both sessions, an observation one of the first session alone
    cases step with
    | own a =>
      obtain ⟨hanswer, hlike⟩ := h.act hs ht a
      obtain ⟨hanswers, hend⟩ := ih hlike (hs.act a) (ht.act a)
      exact ⟨congrArg₂ List.cons hanswer hanswers, hend⟩
    | extra i o => exact ih ((like_observe s i o).trans h) (hs.act _) ht

end Session

end CellGraph
