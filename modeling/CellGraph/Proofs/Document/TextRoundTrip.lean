import CellGraph.Proofs.Document.Codec
import CellGraph.Proofs.Document.RoundTrip

/-!
# Texts of graphs

The text of a graph is read exactly if no cell has values that are nested too deep, and then the document is the one
that was written: the same, unless a formula is a constant that is not finite (`Reachable.read_dump`).
-/

namespace CellGraph

open Json (Tree)

namespace Value

/-- A number of arrays, each in the one before. -/
def nested : Nat → Value
  | 0 => .null
  | n + 1 => .array [nested n]

theorem nesting_nested (n : Nat) : (nested n).nesting = n := by
  induction n with
  | zero => rfl
  | succ n ih => simp [nested, nesting, nestingItems, ih]

end Value

namespace Record

theorem written_eq_self_iff {r : Record} : r.written = r ↔ ∀ f ∈ r.formula, f.isFinite = true := by
  obtain ⟨id, name, formula, inputs, table, fallback, precision⟩ := r
  rcases formula with _ | f
  · simp [written]
  · by_cases hf : f.isFinite = true
    · simp [written, hf]
    · simp [written, hf]

/-- A record that lost its formula when it was written has no table either. -/
theorem table_rule_written {c : Cell} (h : c.table.WellFormed) : (ofCell c).written.rule.table = c.table := by
  obtain ⟨id, name, inputs, rule, fallback, precision, state, program⟩ := c
  cases rule with
  | formula f =>
    show (Record.rule ⟨id, name, (some f).filter Formula.isFinite, inputs, .empty, fallback, precision⟩).table = .empty
    rcases (some f).filter Formula.isFinite with _ | f'
    · rfl
    · rfl
  | lookup t =>
    have ht : t.WellFormed := h
    exact ht.foldl_addEntry

end Record

namespace Document

variable {d : Document}

theorem written_eq_self_iff : d.written = d ↔ ∀ r ∈ d.nodes, ∀ f ∈ r.formula, f.isFinite = true := by
  have hnodes : d.written = d ↔ d.nodes.map Record.written = d.nodes :=
    ⟨congrArg Document.nodes, fun h => congrArg (fun nodes => { d with nodes }) h⟩
  have hself : d.nodes.map Record.written = d.nodes ↔ ∀ r ∈ d.nodes, r.written = r := by
    conv_lhs => rhs; rw [← List.map_id d.nodes]
    exact List.map_inj_left
  simp only [hnodes, hself, Record.written_eq_self_iff]

/-- A valid document is valid as it is written, since the ids and the inputs stay. -/
theorem Valid.written (h : d.Valid) : d.written.Valid := by
  have hids : d.written.nodes.map (·.id) = d.nodes.map (·.id) := by
    rw [Document.written, List.map_map]
    rfl
  refine ⟨hids ▸ h.nodup_records, h.nodup_ids, fun id => ?_, h.target_listed, h.root, h.acyclic, fun r hr => ?_⟩
  · rw [hids]
    exact h.same_ids id
  · obtain ⟨r', hr', rfl⟩ := List.mem_map.1 hr
    exact h.inputs r' hr'

end Document

namespace Graph

variable {g h k : Graph}

/-- What is read of the text of a graph. -/
theorem Reachable.ofText?_dump (hg : g.Reachable) :
    Document.ofText? g.dump =
      if ∀ r ∈ g.document.nodes, r.Shallow (Tree.nestingLimit - 3) then some g.document.written else none := by
  have htable : ∀ r ∈ g.document.nodes, Table.ofList r.table.entries = r.table := by
    intro r hr
    obtain ⟨c, hc, hrecord⟩ := hg.wellFormed.mem_nodes_document.1 hr
    rw [hrecord]
    exact (hg.cell hc).table_wellFormed.ofList_entries
  unfold dump
  split
  · exact Document.ofText?_write htable Spacing.blank_pretty
  · exact Document.ofText?_write htable Spacing.blank_compact

theorem Reachable.read_dump_eq_ok_iff (hg : g.Reachable) :
    h.read g.dump = .ok k ↔
      (∀ r ∈ g.document.nodes, r.Shallow (Tree.nestingLimit - 3)) ∧ h.restore g.document.written = .ok k := by
  rw [read_eq_ok_iff, hg.ofText?_dump]
  split
  · rename_i hshallow
    simp only [Option.some.injEq, exists_eq_left']
    exact ⟨fun hrestore => ⟨hshallow, hrestore⟩, And.right⟩
  · rename_i hdeep
    constructor
    · rintro ⟨_, hnone, -⟩
      nomatch hnone
    · exact fun hok => absurd hok.1 hdeep

/-- A graph that is described by what was written of another one has the document that was written. -/
theorem Reachable.document_of_written {config : Config} (hg : g.Reachable)
    (hdescribes : g.document.written.Describes config k) : k.document = g.document.written := by
  have hshape := hg.wellFormed.sameShape_of_describes (d := g.document.written) rfl hdescribes
  refine hshape.document fun id => ?_
  rw [hg.wellFormed.record_of_describes (d := g.document.written) (f := Record.written) (fun _ => rfl) rfl rfl
    hdescribes id]
  rcases hc : g.cell? id with _ | c
  · rfl
  · rw [Option.map_some, Record.table_rule_written (hg.cell hc).table_wellFormed]
    rfl

/-- A graph reads the text of a reachable one exactly if no value of a cell is nested too deep.  It then keeps its own
options and has the document of the other one without the constants that are not finite.  If there are none of these,
the graphs have the same document, ledger and diagnostics. -/
theorem Reachable.read_dump (hg : g.Reachable) (hh : h.Reachable) :
    ((∃ k, h.read g.dump = .ok k) ↔ ∀ r ∈ g.document.nodes, r.Shallow (Tree.nestingLimit - 3)) ∧
    ∀ k, h.read g.dump = .ok k → k.config = h.config ∧ k.document = g.document.written ∧
      (k.document = g.document ↔ ∀ r ∈ g.document.nodes, ∀ f ∈ r.formula, f.isFinite = true) ∧
      (k.document = g.document → k.evaluate.1 = g.evaluate.1 ∧ k.diagnostics.1 = g.diagnostics.1) := by
  constructor
  · constructor
    · rintro ⟨k, hread⟩
      exact (hg.read_dump_eq_ok_iff.1 hread).1
    · intro hshallow
      obtain ⟨k, hrestore⟩ := hg.wellFormed.valid_document.written.toGraph h.config
      exact ⟨k, hg.read_dump_eq_ok_iff.2 ⟨hshallow, (h.restore_eq _).trans hrestore⟩⟩
  · intro k hread
    obtain ⟨-, hrestore⟩ := hg.read_dump_eq_ok_iff.1 hread
    have hdescribes : g.document.written.Describes h.config k :=
      Document.describes_of_toGraph ((h.restore_eq _).symm.trans hrestore)
    have hdocument := hg.document_of_written hdescribes
    refine ⟨hdescribes.config, hdocument, ?_, fun hsame => ?_⟩
    · rw [hdocument]
      exact Document.written_eq_self_iff
    · have hk : k.Reachable := by
        have hcall := hh.call (.read g.dump) (fun _ hc => nomatch hc)
        rwa [Call.apply_read, hread] at hcall
      have hwritten : g.document.written = g.document := hdocument.symm.trans hsame
      have halike := hg.alike_of_describes (hwritten ▸ hdescribes)
      exact ⟨hg.evaluate_of_alike hk halike, hg.diagnostics_of_alike hk halike⟩

/-! ### A table that is fed by a formula -/

/-- A graph with a cell that has a formula and a fallback and another one that has a table, without an edge. -/
def unfed (f : Formula) (v : Value) : Graph :=
  initial.applyAll [.create "a", .create "b", .onCell ⟨1⟩ (.setFormula f), .onCell ⟨1⟩ (.setFallback (some v)),
    .onCell ⟨2⟩ (.setEntry (.bool true) v)]

/-- The first of the two cells feeds the other one, and that one feeds the root. -/
def lookingUp (f : Formula) (v : Value) : Graph := ((unfed f v).connect ⟨1⟩ ⟨2⟩).connect ⟨2⟩ ⟨0⟩

private theorem ids_unfed (f : Formula) (v : Value) : (unfed f v).ids = [⟨0⟩, ⟨1⟩, ⟨2⟩] := rfl

private theorem reachable_unfed (f : Formula) (v : Value) : (unfed f v).Reachable :=
  (Reachable.new .standard).applyAll (Call.reachable_of_not_adds rfl)

private theorem reachable_lookingUp (f : Formula) (v : Value) : (lookingUp f v).Reachable := by
  refine Reachable.call (.connect ⟨2⟩ ⟨0⟩) (Reachable.call (.connect ⟨1⟩ ⟨2⟩) (reachable_unfed f v) ?_) ?_
  · intro c hadd
    cases hadd
  · intro c hadd
    cases hadd

private theorem lookingUp_eq (f : Formula) (v : Value) :
    lookingUp f v = { unfed f v with store := ((unfed f v).store.link ⟨1⟩ ⟨2⟩).link ⟨2⟩ ⟨0⟩ } := by
  have hg := (reachable_unfed f v).wellFormed
  have hroot : (unfed f v).root = ⟨0⟩ := rfl
  have hnone : (unfed f v).targets ⟨1⟩ = [] := rfl
  have haccepts : (unfed f v).Accepts ⟨1⟩ ⟨2⟩ := by
    refine ⟨by rw [hroot]; decide, by rw [ids_unfed]; decide, by rw [ids_unfed]; decide, fun _ => rfl, ?_, ?_⟩
    · rw [hnone]
      exact List.not_mem_nil
    · exact not_path_of_targets_nil rfl (by decide)
  have hfirst : (unfed f v).connect ⟨1⟩ ⟨2⟩ = { unfed f v with store := (unfed f v).store.link ⟨1⟩ ⟨2⟩ } :=
    hg.connect_of_accepts haccepts
  have hfed : ((unfed f v).connect ⟨1⟩ ⟨2⟩).WellFormed := hg.connect ⟨1⟩ ⟨2⟩
  rw [hfirst] at hfed
  have hids : Graph.ids { unfed f v with store := (unfed f v).store.link ⟨1⟩ ⟨2⟩ } = [⟨0⟩, ⟨1⟩, ⟨2⟩] := rfl
  have hroot' : Graph.Accepts { unfed f v with store := (unfed f v).store.link ⟨1⟩ ⟨2⟩ } ⟨2⟩ ⟨0⟩ :=
    hfed.accepts_root (by rw [hids]; decide) (by rw [hroot]; decide) rfl
  rw [lookingUp, hfirst, hfed.connect_of_accepts hroot']

private theorem mem_nodes_lookingUp {f : Formula} {v : Value} {r : Record} : r ∈ (lookingUp f v).document.nodes ↔
    r = ⟨⟨0⟩, "root", some (.expression "$1"), [⟨2⟩], .empty, none, none⟩ ∨
      r = ⟨⟨1⟩, "a", some f, [], .empty, some v, none⟩ ∨
        r = ⟨⟨2⟩, "b", none, [⟨1⟩], ⟨[(.bool true, v)]⟩, none, none⟩ := by
  rw [(reachable_lookingUp f v).wellFormed.mem_nodes_document, lookingUp_eq]
  constructor
  · rintro ⟨c, hc, hr⟩
    have hid := Store.mem_ids_iff.2 ⟨c, hc⟩
    rw [Store.ids_link, Store.ids_link] at hid
    change r.id ∈ (unfed f v).ids at hid
    rw [ids_unfed, List.mem_cons, List.mem_cons, List.mem_singleton] at hid
    -- the cell under each id is known, and so is its record
    rcases hid with hid | hid | hid
    · rw [hid] at hc
      exact Or.inl (hr.trans (congrArg Record.ofCell (Option.some.inj hc).symm))
    · rw [hid] at hc
      exact Or.inr (Or.inl (hr.trans (congrArg Record.ofCell (Option.some.inj hc).symm)))
    · rw [hid] at hc
      exact Or.inr (Or.inr (hr.trans (congrArg Record.ofCell (Option.some.inj hc).symm)))
  · rintro (rfl | rfl | rfl)
    · exact ⟨_, rfl, rfl⟩
    · exact ⟨_, rfl, rfl⟩
    · exact ⟨_, rfl, rfl⟩

/-- A graph with a constant that is looked up, and with an object as its fallback and in the table, is read in a new graph
with other options. -/
theorem read_dump_of_finite :
    let v : Value := .object (.ofList [("kind", .string "pair"), ("items", .array [.null, .object .nil])])
    let g := lookingUp (.number 2) v
    let h := ofConfig { Config.standard with prettyDump := true }
    ∃ k, h.read g.dump = .ok k ∧ k.document = g.document ∧ k.evaluate.1 = g.evaluate.1 ∧
      k.diagnostics.1 = g.diagnostics.1 := by
  intro v g h
  obtain ⟨hsucceeds, hresult⟩ := Reachable.read_dump (h := h) (reachable_lookingUp (.number 2) v) (.new _)
  have hshallow : ∀ r ∈ g.document.nodes, r.Shallow (Tree.nestingLimit - 3) := by
    intro r hr
    rcases mem_nodes_lookingUp.1 hr with rfl | rfl | rfl
    · decide
    · decide
    · decide
  have hfinite : ∀ r ∈ g.document.nodes, ∀ f ∈ r.formula, f.isFinite = true := by
    intro r hr f hf
    rcases mem_nodes_lookingUp.1 hr with rfl | rfl | rfl
    · rw [← Option.some.inj hf]
      rfl
    · rw [← Option.some.inj hf]
      decide +kernel
    · cases hf
  obtain ⟨k, hread⟩ := hsucceeds.2 hshallow
  obtain ⟨-, -, hsame, hrest⟩ := hresult k hread
  exact ⟨k, hread, hsame.2 hfinite, hrest (hsame.2 hfinite)⟩

/-- A constant that is no number is lost in the text, and a text with 125 arrays inside each other is refused. -/
theorem read_dump_of_unwritable :
    (∃ k, initial.read (lookingUp (.number (0 / 0)) .null).dump = .ok k ∧
      k.document ≠ (lookingUp (.number (0 / 0)) .null).document) ∧
    ∀ k, initial.read (lookingUp (.number 2) (.nested 125)).dump ≠ .ok k := by
  constructor
  · have hg := reachable_lookingUp (.number (0 / 0)) .null
    have hshallow : ∀ r ∈ (lookingUp (.number (0 / 0)) .null).document.nodes, r.Shallow (Tree.nestingLimit - 3) := by
      intro r hr
      rcases mem_nodes_lookingUp.1 hr with rfl | rfl | rfl
      · decide
      · decide
      · decide
    obtain ⟨k, hgraph⟩ := hg.wellFormed.valid_document.written.toGraph initial.config
    have hread := (hg.read_dump_eq_ok_iff (h := initial)).2 ⟨hshallow, (restore_eq _ _).trans hgraph⟩
    refine ⟨k, hread, fun hsame => ?_⟩
    have hwritten := (hg.document_of_written (Document.describes_of_toGraph hgraph)).symm.trans hsame
    have hfinite := Document.written_eq_self_iff.1 hwritten _ (mem_nodes_lookingUp.2 (Or.inr (Or.inl rfl))) _ rfl
    have hnan : Formula.isFinite (.number (0 / 0)) = false := by decide +kernel
    exact absurd (hfinite.symm.trans hnan) (by decide)
  · intro k hread
    have hshallow := (reachable_lookingUp _ _).read_dump_eq_ok_iff.1 hread
    have hnesting := (hshallow.1 _ (mem_nodes_lookingUp.2 (Or.inr (Or.inl rfl)))).2 _ rfl
    rw [Value.nesting_nested] at hnesting
    exact absurd hnesting (by decide)

end Graph

end CellGraph
