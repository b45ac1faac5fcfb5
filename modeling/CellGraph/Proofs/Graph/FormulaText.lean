import CellGraph.Graph.Trace
import CellGraph.Proofs.Formula.Unbroken
import CellGraph.Proofs.Graph.PassThrough

/-!
# Formulas in a trace

A trace shows a formula with names of inputs in place of its references (`Trace.Piece.shown`).  It takes the references
from the text as it is, and the code of the formula takes them from the text without the characters that do not count.
So the inputs that are named are those that the code reads exactly if no reference is broken up by such characters and
all of these inputs are cells (`Trace.bindings_eq_iff`).
-/

namespace CellGraph

namespace Trace

open Formula (Instr Unbroken references references_run sanitize)

variable {g : Graph} {inputs : List NodeId} {text : String} {code : List Instr}

/-! ### Pieces of a formula -/

/-- A part of a text: without references, or a reference with its digits. -/
inductive Piece where
  | plain (cs : List Char)
  | reference (digits : List Char)

namespace Piece

def written : Piece → List Char
  | plain cs => cs
  | reference digits => '$' :: digits

/-- A piece as it is shown: the name of an input in place of a reference, if there is one. -/
def shown (g : Graph) (inputs : List NodeId) : Piece → List Char
  | plain cs => cs
  | reference digits =>
    match referenced? g inputs digits with
    | some c => c.name.toList
    | none => '$' :: digits

def digits? : Piece → Option (List Char)
  | plain _ => none
  | reference digits => some digits

end Piece

private theorem eq_dollar {cs rest : List Char} {c : Char} (h : cs.dropWhile (· != '$') = c :: rest) : c = '$' := by
  have hhead := List.head?_dropWhile_not (· != '$') cs
  rw [h] at hhead
  simpa using hhead

/-- A text cut into pieces: a reference is a dollar sign with all digits that come next. -/
def pieces (cs : List Char) : List Piece :=
  match h : cs.dropWhile (· != '$') with
  | [] => [.plain cs]
  | _ :: rest =>
    have := length_of_dropWhile h
    .plain (cs.takeWhile (· != '$')) :: .reference (rest.takeWhile isDigit) :: pieces (rest.dropWhile isDigit)
termination_by cs.length
decreasing_by
  have := (List.dropWhile_suffix isDigit (l := rest)).length_le
  omega

theorem pieces_of_plain {cs : List Char} (h : cs.dropWhile (· != '$') = []) : pieces cs = [.plain cs] := by
  rw [pieces]
  split
  · rfl
  · rename_i hsome
    exact absurd (h.symm.trans hsome) (List.cons_ne_nil _ _).symm

theorem pieces_of_reference {cs rest : List Char} {dollar : Char} (h : cs.dropWhile (· != '$') = dollar :: rest) :
    pieces cs =
      .plain (cs.takeWhile (· != '$')) :: .reference (rest.takeWhile isDigit) :: pieces (rest.dropWhile isDigit) := by
  rw [pieces]
  split
  · rename_i hnone
    exact absurd (h.symm.trans hnone) (List.cons_ne_nil _ _)
  · rename_i hsome
    obtain ⟨-, rfl⟩ := List.cons.inj (h.symm.trans hsome)
    rfl

/-- What is shown in place of a formula is what is shown in place of its pieces. -/
theorem formulaText_eq (g : Graph) (inputs : List NodeId) (cs : List Char) :
    formulaText g inputs cs = (pieces cs).flatMap (Piece.shown g inputs) := by
  fun_induction pieces cs with
  | case1 cs h =>
    rw [formulaText_of_plain h]
    exact (List.append_nil cs).symm
  | case2 cs dollar rest h _ ih =>
    obtain rfl := eq_dollar h
    rw [formulaText_of_reference h, ih, List.flatMap_cons, List.flatMap_cons, List.append_assoc]
    rfl

theorem flatMap_written (cs : List Char) : (pieces cs).flatMap Piece.written = cs := by
  fun_induction pieces cs with
  | case1 cs h => exact List.append_nil cs
  | case2 cs dollar rest h _ ih =>
    obtain rfl := eq_dollar h
    rw [List.flatMap_cons, List.flatMap_cons, ih]
    show cs.takeWhile _ ++ '$' :: (rest.takeWhile isDigit ++ rest.dropWhile isDigit) = cs
    rw [List.takeWhile_append_dropWhile, ← h, List.takeWhile_append_dropWhile]

/-- The digits of the references of a text. -/
def digitRuns (cs : List Char) : List (List Char) := (pieces cs).filterMap Piece.digits?

private theorem not_mem_takeWhile (cs : List Char) : '$' ∉ cs.takeWhile (· != '$') := by
  intro hmem
  simpa using List.mem_takeWhile_imp hmem

theorem map_digitsValue_digitRuns (cs : List Char) : (digitRuns cs).map digitsValue = references cs := by
  rw [digitRuns]
  fun_induction pieces cs with
  | case1 cs h =>
    have hnone : references (cs.takeWhile (· != '$') ++ cs.dropWhile (· != '$')) = references [] := by
      rw [h]
      exact references_run (not_mem_takeWhile cs) []
    rw [List.takeWhile_append_dropWhile] at hnone
    exact hnone.symm
  | case2 cs dollar rest h _ ih =>
    obtain rfl := eq_dollar h
    have hdigits : '$' ∉ rest.takeWhile isDigit := fun hmem => absurd (List.mem_takeWhile_imp hmem) (by decide)
    have hrest := references_run hdigits (rest.dropWhile isDigit)
    rw [List.takeWhile_append_dropWhile] at hrest
    have hcs := references_run (not_mem_takeWhile cs) (cs.dropWhile (· != '$'))
    rw [List.takeWhile_append_dropWhile, h, references, if_pos rfl] at hcs
    rw [hcs, hrest, ← ih]
    rfl

/-! ### The inputs that are named -/

/-- The position of the input that is named in place of a reference, if there is one. -/
def binding? (g : Graph) (inputs : List NodeId) (digits : List Char) : Option Nat :=
  (referenced? g inputs digits).map fun _ => digitsValue digits - 1

/-- The references of a formula in their order, each with the position of the input that is named in place of it. -/
def bindings (g : Graph) (inputs : List NodeId) (cs : List Char) : List (Option Nat) :=
  (digitRuns cs).map (binding? g inputs)

/-- Whether an input is a cell. -/
def Named (g : Graph) (inputs : List NodeId) (i : Nat) : Prop := ∃ id c, inputs[i]? = some id ∧ g.cell? id = some c

theorem binding?_eq_some_iff {digits : List Char} {i : Nat} :
    binding? g inputs digits = some i ↔ digitsValue digits = i + 1 ∧ Named g inputs i := by
  rw [binding?, referenced?, Named, Option.map_eq_some_iff]
  rcases digitsValue digits with _ | k
  · refine iff_of_false ?_ fun h => Nat.succ_ne_zero i h.1.symm
    rintro ⟨c, hc, -⟩
    exact Option.some_ne_none c hc.symm
  · simp only [Option.bind_eq_some_iff, Nat.add_sub_cancel, Nat.add_right_cancel_iff]
    constructor
    · rintro ⟨c, ⟨id, hid, hc⟩, rfl⟩
      exact ⟨rfl, id, c, hid, hc⟩
    · rintro ⟨rfl, id, c, hid, hc⟩
      exact ⟨c, ⟨id, hid, hc⟩, rfl⟩

/-- The inputs that are named are as many arguments exactly if these are the numbers of the references and are cells. -/
theorem bindings_eq_map_some_iff {cs : List Char} {positions : List Nat} :
    bindings g inputs cs = positions.map some ↔
      references cs = positions.map (· + 1) ∧ ∀ i ∈ positions, Named g inputs i := by
  rw [← map_digitsValue_digitRuns, bindings]
  generalize digitRuns cs = runs
  induction runs generalizing positions with
  | nil => cases positions <;> simp
  | cons digits runs ih =>
    rcases positions with _ | ⟨i, positions⟩
    · simp
    · simp only [List.map_cons, List.cons.injEq, binding?_eq_some_iff, ih, List.forall_mem_cons]
      exact and_and_and_comm

/-- The inputs that are named in place of the references of a formula are those that its code reads, in the same order,
exactly if no reference is broken up and these inputs are cells. -/
theorem bindings_eq_iff (hcode : Formula.compile text inputs.length = .ok code) :
    bindings g inputs text.toList = (Instr.arguments code).map some ↔
      Unbroken text.toList ∧ ∀ i ∈ Instr.arguments code, Named g inputs i := by
  rw [bindings_eq_map_some_iff, Formula.succ_arguments_of_compile hcode, eq_comm,
    Formula.references_sanitize_iff (Formula.compile_eq_ok_iff.1 hcode).1]

end Trace

namespace Graph

open Trace (bindings pieces Piece Named)
open Formula (Instr Unbroken)

/-- The inputs of a cell are cells. -/
theorem Reachable.named {g : Graph} (hg : g.Reachable) (id : NodeId) {i : Nat} (hi : i < (g.inputs id).length) :
    Named g (g.inputs id) i := by
  have hedge : id ∈ g.targets (g.inputs id)[i] := (hg.wellFormed.store.mirror _ _).2 (List.getElem_mem hi)
  obtain ⟨c, hc⟩ := Store.mem_ids_iff.1 (hg.wellFormed.store.mem_ids_of_edge hedge).1
  exact ⟨_, c, List.getElem?_eq_getElem hi, hc⟩

/-- A formula that compiles is shown with its references replaced piece by piece.  The inputs that are named are those
that its code reads, in the same order, and no reference is left, exactly if no reference is broken up by characters that
do not count and the inputs that the code reads are cells.  In a reachable graph the inputs of a cell always are. -/
theorem formulaText_exact (g : Graph) {inputs : List NodeId} {text : String} {code : List Instr}
    (hcode : Formula.compile text inputs.length = .ok code) :
    Trace.formulaText g inputs text.toList = (pieces text.toList).flatMap (Piece.shown g inputs) ∧
    (pieces text.toList).flatMap Piece.written = text.toList ∧
    (bindings g inputs text.toList = (Instr.arguments code).map some ↔
      Unbroken text.toList ∧ ∀ i ∈ Instr.arguments code, Named g inputs i) ∧
    (g.Reachable → ∀ id, g.inputs id = inputs →
      (bindings g inputs text.toList = (Instr.arguments code).map some ↔ Unbroken text.toList)) := by
  refine ⟨Trace.formulaText_eq g inputs _, Trace.flatMap_written _, Trace.bindings_eq_iff hcode, ?_⟩
  rintro hg id rfl
  have hnamed : ∀ i ∈ Instr.arguments code, Named g (g.inputs id) i :=
    fun i hi => hg.named id (Formula.lt_of_mem_arguments hcode hi)
  rw [Trace.bindings_eq_iff hcode, and_iff_left hnamed]

private theorem compile_of_sanitize {text : String} (h : Formula.sanitize text.toList = ['$', '1']) :
    ∃ code, Formula.compile text 1 = .ok code ∧ Instr.arguments code = [0] := by
  refine ⟨(Formula.ParseTree.argument 0).postorder, ?_, rfl⟩
  have hpass := Formula.compile_passThrough
  have hchars : Formula.sanitize "$1".toList = ['$', '1'] := by decide
  rw [Formula.compile_eq_ok_iff, hchars] at hpass
  rw [Formula.compile_eq_ok_iff, h]
  exact hpass

/-- Letters in front of a reference are left as they are. -/
theorem formulaText_exact_of_letter :
    let g := feeding (.setFormula (.number 2))
    g.Reachable ∧ g.inputs g.root = [⟨1⟩] ∧
      (∃ code, Formula.compile "n$1" [(⟨1⟩ : NodeId)].length = .ok code ∧ Instr.arguments code = [0]) ∧
      bindings g [⟨1⟩] "n$1".toList = [some 0] := by
  intro g
  have hg : g.Reachable := reachable_feeding _
  have hinputs : g.inputs g.root = [⟨1⟩] := inputs_feeding _
  obtain ⟨code, hcode, harguments⟩ : ∃ code, Formula.compile "n$1" [(⟨1⟩ : NodeId)].length = .ok code ∧ _ :=
    compile_of_sanitize (by decide)
  have hunbroken : Unbroken ['n', '$', '1'] :=
    Formula.unbroken_cons_iff.2 ⟨fun h => absurd h (by decide),
      Formula.unbroken_of_forall (List.forall_mem_cons.2 ⟨rfl, List.forall_mem_singleton.2 rfl⟩)⟩
  have hbindings := ((formulaText_exact g hcode).2.2.2 hg g.root hinputs).2 hunbroken
  rw [harguments] at hbindings
  exact ⟨hg, hinputs, ⟨code, hcode, harguments⟩, hbindings⟩

/-- A letter between a dollar sign and its digit: the code reads the input, and the trace does not name it. -/
theorem not_bindings_of_letter :
    let g := feeding (.setFormula (.number 2))
    g.Reachable ∧ g.inputs g.root = [⟨1⟩] ∧
      (∃ code, Formula.compile "$x1" 1 = .ok code ∧ Instr.arguments code = [0]) ∧
      bindings g [⟨1⟩] "$x1".toList = [none] ∧ Trace.formulaText g [⟨1⟩] "$x1".toList = "$x1".toList := by
  intro g
  have hpieces : pieces "$x1".toList = [.plain [], .reference [], .plain ['x', '1']] := by
    have hplain : pieces ['x', '1'] = [.plain ['x', '1']] := Trace.pieces_of_plain (by decide)
    rw [Trace.pieces_of_reference (show "$x1".toList.dropWhile _ = ['$', 'x', '1'] by decide)]
    exact congrArg (Piece.plain [] :: Piece.reference [] :: ·) hplain
  refine ⟨reachable_feeding _, inputs_feeding _, compile_of_sanitize (by decide), ?_, ?_⟩
  · rw [bindings, Trace.digitRuns, hpieces]
    rfl
  · rw [Trace.formulaText_eq, hpieces]
    rfl

end Graph

end CellGraph
