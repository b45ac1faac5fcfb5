import CellGraph.Document.Record
import CellGraph.Proofs.Cell.Reachable
import Mathlib.Logic.Function.Iterate

/-!
# Cells without their programs

`Cell.forget` makes a cell stale and takes its program away, which leaves all of its configuration.  Compiling a cell
and evaluating it change nothing else (`forget_compile`).  No change of a cell looks at what was compiled (`Blind`), so
cells that differ only in that still differ only in that afterwards.
-/

namespace CellGraph.Cell

/-- The cell as if it had never been compiled. -/
def forget (c : Cell) : Cell := { c with state := .stale, program := .missing }

theorem record_of_forget {c d : Cell} (h : c.forget = d.forget) : Record.ofCell c = Record.ofCell d := by
  show Record.ofCell c.forget = Record.ofCell d.forget
  rw [h]

theorem sameConfig_of_forget {c c' d d' : Cell} (hc : c.forget = c'.forget) (hd : d.forget = d'.forget) :
    c.sameConfig d = c'.sameConfig d' := by
  -- a comparison reads neither state nor program
  show c.forget.sameConfig d.forget = _
  rw [hc, hd]
  rfl

/-- Whether what a change makes of a cell, its program apart, does not depend on what was compiled. -/
def Blind (f : Cell → Cell) : Prop := ∀ c, (f c.forget).forget = (f c).forget

theorem Blind.congr {f : Cell → Cell} (hf : Blind f) {c d : Cell} (h : c.forget = d.forget) :
    (f c).forget = (f d).forget := by
  rw [← hf c, h, hf]

theorem Blind.congr_map {f : Cell → Cell} (hf : Blind f) {a b : Option Cell} (h : a.map forget = b.map forget) :
    (a.map f).map forget = (b.map f).map forget := by
  rcases a with _ | c <;> rcases b with _ | d
  · rfl
  · nomatch h
  · nomatch h
  · exact congrArg some (hf.congr (Option.some.inj h))

theorem Blind.iterate {f : Cell → Cell} (hf : Blind f) (n : Nat) : Blind f^[n] := by
  induction n with
  | zero => exact fun _ => rfl
  | succ n ih =>
    intro c
    rw [Function.iterate_succ_apply', Function.iterate_succ_apply']
    exact hf.congr (ih c)

theorem forget_compile (c : Cell) : c.compile.forget = c.forget := by
  unfold compile
  split
  · split <;> rfl
  · rfl

/-- A change that only concerns what was compiled. -/
theorem blind_of_forget {f : Cell → Cell} (hf : ∀ c, (f c).forget = c.forget) : Blind f :=
  fun c => (hf c.forget).trans (hf c).symm

theorem blind_removeInput (id : NodeId) : Blind fun c => c.removeInput id := by
  intro c
  by_cases hid : id ∈ c.inputs
  · have hid' : id ∈ c.forget.inputs := hid
    simp only [removeInput, if_pos hid, if_pos hid']
    rfl
  · have hid' : id ∉ c.forget.inputs := hid
    simp only [removeInput, if_neg hid, if_neg hid']
    rfl

theorem blind_clearInputs : Blind clearInputs := by
  rintro ⟨id, name, inputs, rule, fallback, precision, state, program⟩
  cases inputs <;> rfl

theorem Call.blind (call : Call) : Blind call.apply := by
  intro c
  cases call with
  | setEntry key v => cases key <;> rfl
  | compile => exact blind_of_forget forget_compile c
  | evaluate l =>
    rw [Call.apply, Call.apply, snd_evaluate, snd_evaluate]
    exact blind_of_forget forget_compile c
  | _ => rfl

end CellGraph.Cell
