import CellGraph.Graph.Evaluate

/-!
# Traces

A trace shows how a cell came to its value: the cell, below it its inputs, below these their inputs and so on.  A cell
is shown in full at its first place, and other places refer to the level of that one.  `Graph.walk` lists the entries
and keeps the places that are still to be visited on a stack, so a long chain of cells takes no call depth;
`Trace.Entry.line` writes an entry.
-/

namespace CellGraph

namespace Trace

/-- What is shown at a place. -/
inductive Content where
  /-- A cell that is shown in full at another place, at a level. -/
  | reference (level : Nat)
  /-- An id without a cell. -/
  | missing (id : NodeId)
  | cell (id : NodeId) (c : Cell)

/-- A place in a trace with what is shown there. -/
structure Entry where
  /-- The way from the top: at each step, whether it goes to the last input. -/
  branch : List Bool
  content : Content

/-- The level of a place; the top has level one. -/
def level (branch : List Bool) : Nat := branch.length + 1

/-- The places of the inputs of a cell. -/
def children (branch : List Bool) : List NodeId → List (NodeId × List Bool)
  | [] => []
  | [id] => [(id, branch ++ [true])]
  | id :: ids => (id, branch ++ [false]) :: children branch ids

end Trace

namespace Graph

/-- How many ids of the graph are not among those seen. -/
private def unseen (g : Graph) (seen : List (NodeId × Nat)) : Nat := g.ids.countP fun id => (seen.lookup id).isNone

private theorem countP_lookup_le (ids : List NodeId) (seen : List (NodeId × Nat)) (id : NodeId) (level : Nat) :
    (ids.countP fun i => (((id, level) :: seen).lookup i).isNone) ≤ ids.countP fun i => (seen.lookup i).isNone := by
  apply List.countP_mono_left
  intro i _
  simp only [List.lookup_cons]
  split <;> simp

private theorem countP_lookup_lt {ids : List NodeId} {seen : List (NodeId × Nat)} {id : NodeId} (level : Nat)
    (hmem : id ∈ ids) (hnew : seen.lookup id = none) :
    (ids.countP fun i => (((id, level) :: seen).lookup i).isNone) < ids.countP fun i => (seen.lookup i).isNone := by
  induction ids with
  | nil => simp at hmem
  | cons i ids ih =>
    have hle := countP_lookup_le ids seen id level
    rcases List.mem_cons.1 hmem with rfl | hmem
    · simp only [List.countP_cons, List.lookup_cons, hnew, beq_self_eq_true]
      simp only [List.lookup_cons] at hle
      simp
      omega
    · have hlt := ih hmem
      have hhead : (((id, level) :: seen).lookup i).isNone = true → (seen.lookup i).isNone = true := by
        simp only [List.lookup_cons]
        split <;> simp
      simp only [List.countP_cons]
      by_cases hold : (seen.lookup i).isNone = true
      · rw [if_pos hold]
        split <;> omega
      · rw [if_neg hold, if_neg fun h => hold (hhead h)]
        omega

/-- The entries for the places on a stack, in which the cells below a place come before the places after it.  The ids
that were seen have the level of their first place. -/
def walk (g : Graph) (seen : List (NodeId × Nat)) (places : List (NodeId × List Bool)) : List Trace.Entry :=
  match places with
  | [] => []
  | (id, branch) :: places =>
    match hs : seen.lookup id with
    | some level => ⟨branch, .reference level⟩ :: walk g seen places
    | none =>
      match hc : g.cell? id with
      | none => ⟨branch, .missing id⟩ :: walk g ((id, Trace.level branch) :: seen) places
      | some c =>
        have := countP_lookup_lt (Trace.level branch) (IdMap.mem_ids_of_get? hc) hs
        ⟨branch, .cell id c⟩ ::
          walk g ((id, Trace.level branch) :: seen) (Trace.children branch c.inputs ++ places)
termination_by (g.unseen seen, places.length)
decreasing_by
  · exact Prod.Lex.right _ (Nat.lt_succ_self _)
  · rcases Nat.lt_or_eq_of_le (countP_lookup_le g.ids seen id (Trace.level branch)) with h | h
    · exact Prod.Lex.left _ _ h
    · unfold unseen
      rw [h]
      exact Prod.Lex.right _ (Nat.lt_succ_self _)
  · exact Prod.Lex.left _ _ this

/-! ### One turn of a walk -/

section Walk

variable {g : Graph} {seen : List (NodeId × Nat)} {places : List (NodeId × List Bool)}
variable {id : NodeId} {branch : List Bool}

theorem walk_of_seen (g : Graph) {level : Nat} (hseen : seen.lookup id = some level) :
    g.walk seen ((id, branch) :: places) = ⟨branch, .reference level⟩ :: g.walk seen places := by
  rw [walk]
  split
  · rename_i hs
    obtain rfl := Option.some.inj (hs.symm.trans hseen)
    rfl
  · rename_i hs
    exact absurd (hseen.symm.trans hs) (Option.some_ne_none _)

theorem walk_of_missing (hseen : seen.lookup id = none) (hc : g.cell? id = none) :
    g.walk seen ((id, branch) :: places) =
      ⟨branch, .missing id⟩ :: g.walk ((id, Trace.level branch) :: seen) places := by
  rw [walk]
  split
  · rename_i hs
    exact absurd (hs.symm.trans hseen) (Option.some_ne_none _)
  · split
    · rfl
    · rename_i hsome
      exact absurd (hsome.symm.trans hc) (Option.some_ne_none _)

theorem walk_of_cell {c : Cell} (hseen : seen.lookup id = none) (hc : g.cell? id = some c) :
    g.walk seen ((id, branch) :: places) =
      ⟨branch, .cell id c⟩ :: g.walk ((id, Trace.level branch) :: seen) (Trace.children branch c.inputs ++ places) := by
  rw [walk]
  split
  · rename_i hs
    exact absurd (hs.symm.trans hseen) (Option.some_ne_none _)
  · split
    · rename_i hnone
      exact absurd (hc.symm.trans hnone) (Option.some_ne_none _)
    · rename_i hsome
      obtain rfl := Option.some.inj (hsome.symm.trans hc)
      rfl

end Walk

end Graph

namespace Trace

/-! ### Writing a trace -/

/-- The lines that lead to a place. -/
def stem : List Bool → String
  | [] => ""
  | [true] => "`--"
  | [false] => "|--"
  | true :: branch => "   " ++ stem branch
  | false :: branch => "|  " ++ stem branch

/-- Doubles in constants: always by position, an integer without a point, and a tie goes up. -/
def constantLayout : Layout where
  positional _ := true
  pointZero := false
  plusSign := false
  tie := .up

/-- A value in a trace.  Doubles have three places after the point. -/
def valueText : Value → String
  | .number (.float x _) => .ofList (fixed 3 x)
  | v => v.compact

/-- What a ledger has on a cell. -/
def outcomeText (l : Ledger) (id : NodeId) : String :=
  match l.outcome? id with
  | none => " [?]"
  | some ⟨none, none⟩ => " [no value]"
  | some ⟨none, some v⟩ => " [" ++ valueText v ++ "]"
  | some ⟨some f, none⟩ => " [Err: " ++ f.message ++ "]"
  | some ⟨some f, some v⟩ => " [" ++ valueText v ++ "] (Err: " ++ f.message ++ ")"

/-- The cell that a reference names by its digits, counted from one. -/
def referenced? (g : Graph) (inputs : List NodeId) (digits : List Char) : Option Cell :=
  match digitsValue digits with
  | 0 => none
  | k + 1 => inputs[k]?.bind g.cell?

theorem length_of_dropWhile {p : Char → Bool} {cs rest : List Char} {c : Char}
    (h : cs.dropWhile p = c :: rest) : rest.length < cs.length := by
  have := (List.dropWhile_suffix p (l := cs)).length_le
  rw [h, List.length_cons] at this
  omega

/-- A formula with the names of the inputs in place of the references to them.  A reference to no input stays as it is
written. -/
def formulaText (g : Graph) (inputs : List NodeId) (cs : List Char) : List Char :=
  match h : cs.dropWhile (· != '$') with
  | [] => cs
  | dollar :: rest =>
    have := length_of_dropWhile h
    let digits := rest.takeWhile isDigit
    let shown :=
      match referenced? g inputs digits with
      | some c => c.name.toList
      | none => dollar :: digits
    cs.takeWhile (· != '$') ++ shown ++ formulaText g inputs (rest.dropWhile isDigit)
termination_by cs.length
decreasing_by
  have := (List.dropWhile_suffix isDigit (l := rest)).length_le
  omega

theorem formulaText_of_plain {g : Graph} {inputs : List NodeId} {cs : List Char} (h : cs.dropWhile (· != '$') = []) :
    formulaText g inputs cs = cs := by
  rw [formulaText]
  split
  · rfl
  · rename_i hsome
    exact absurd (h.symm.trans hsome) (List.cons_ne_nil _ _).symm

theorem formulaText_of_reference {g : Graph} {inputs : List NodeId} {cs rest : List Char} {dollar : Char}
    (h : cs.dropWhile (· != '$') = dollar :: rest) :
    formulaText g inputs cs = cs.takeWhile (· != '$') ++
      (match referenced? g inputs (rest.takeWhile isDigit) with
        | some c => c.name.toList
        | none => dollar :: rest.takeWhile isDigit) ++
      formulaText g inputs (rest.dropWhile isDigit) := by
  rw [formulaText]
  split
  · rename_i hnone
    exact absurd (h.symm.trans hnone) (List.cons_ne_nil _ _)
  · rename_i hsome
    obtain ⟨rfl, rfl⟩ := List.cons.inj (h.symm.trans hsome)
    rfl

/-- The rule of a cell. -/
def ruleText (g : Graph) (c : Cell) : String :=
  match c.rule with
  | .formula (.number x) => " -> Const(" ++ .ofList (constantLayout.write x) ++ ")"
  | .formula (.expression text) => " = " ++ .ofList (formulaText g c.inputs text.toList)
  | .lookup table =>
    if table.isEmpty then " -> (uninitialized)" else " -> Lookup(" ++ toString table.size ++ " entries)"

/-- The precision of a cell, if it has one. -/
def precisionText : Option UInt32 → String
  | some places => " round(" ++ toString places.toNat ++ ")"
  | none => ""

/-- The fallback of a cell, if it has one. -/
def fallbackText : Option Value → String
  | some v => " else " ++ v.compact
  | none => ""

/-- A place and what is shown there. -/
def Entry.line (g : Graph) (l : Ledger) (e : Entry) : String :=
  let mark := "[L" ++ toString (level e.branch) ++ "] "
  stem e.branch ++
    match e.content with
    | .reference level => "-> (Ref to L" ++ toString level ++ ")"
    | .missing id => mark ++ "<missing " ++ id.text ++ ">"
    | .cell id c =>
      mark ++ c.name ++ outcomeText l id ++ ruleText g c ++ precisionText c.precision ++ fallbackText c.fallback

end Trace

namespace Graph

/-- The trace of a cell, with the outcomes of a ledger. -/
def formatTrace (g : Graph) (l : Ledger) (id : NodeId) : String :=
  match g.cell? id with
  | none => "Error: Invalid Node ID " ++ id.text ++ "\n"
  | some c =>
    let lines := (g.walk [] [(id, [])]).map fun e => e.line g l ++ "\n"
    "AUDIT TRACE for node '" ++ c.name ++ "':\n" ++ "--------------------------------------------------\n" ++
      String.join lines

/-- Evaluates the graph and traces a cell. -/
def trace (g : Graph) (id : NodeId) : String × Graph :=
  let (ledger, g) := g.evaluate
  (g.formatTrace ledger id, g)

end Graph

end CellGraph
