import CellGraph.Json.Tree
import CellGraph.Proofs.Json.Text

/-!
# Trees of values

The text of a value has the tree of the value as its shape (`Value.ofText?_write`), and the tree is read as the value if
its nesting is within the limit, and not at all otherwise (`Value.value?_toTree`).  No key of an object comes twice in
the value, so setting its members one after the other gives them back.
-/

namespace CellGraph

open Json (Token Tree Frame Progress)
open Json.StringPiece (pieces text?_pieces)

namespace Value

mutual

/-- The shape of the text of a value. -/
def toTree : Value → Tree
  | .null => .null
  | .bool b => .bool b
  | .number n => .numeral n.numeral
  | .string s => .string (pieces s)
  | .array vs => .array (toTrees vs)
  | .object fs => .object (toMembers fs)

def toTrees : List Value → List Tree
  | [] => []
  | v :: vs => toTree v :: toTrees vs

def toMembers {used : List String} : Members used → List (List Json.StringPiece × Tree)
  | .nil => []
  | .cons k v _ fs => (pieces k, toTree v) :: toMembers fs

end

theorem toTrees_eq_map (vs : List Value) : toTrees vs = vs.map toTree := by
  induction vs with
  | nil => rfl
  | cons v vs ih => rw [toTrees, ih, List.map_cons]

theorem toMembers_eq_map {used : List String} (fs : Members used) :
    toMembers fs = fs.toList.map fun f => (pieces f.1, f.2.toTree) := by
  induction fs with
  | nil => rfl
  | cons k v new fs ih => rw [toMembers, ih, Members.toList, List.map_cons]

/-! ### Building the tree -/

/-- The first item of an array starts like any other value. -/
private theorem run_firstItem (v : Value) (fs : List Frame) (ts : List Token) :
    Progress.run (.firstItem fs) (v.tokens ++ ts) = Progress.run (.value (.array [] :: fs)) (v.tokens ++ ts) := by
  rcases v with _ | _ | _ | _ | (_ | ⟨v, vs⟩) | (_ | ⟨k, v, new, ms⟩) <;> rfl

mutual

/-- The tokens of a value complete it, before all other tokens and inside any containers. -/
theorem run_tokens : ∀ (v : Value) (fs : List Frame) (ts : List Token),
    Progress.run (.value fs) (v.tokens ++ ts) = Progress.run (.complete v.toTree fs) ts
  | .null, _, _ => rfl
  | .bool _, _, _ => rfl
  | .number _, _, _ => rfl
  | .string _, _, _ => rfl
  | .array [], _, _ => rfl
  | .array (v :: vs), fs, ts => by
    have hfirst : Progress.run (.firstItem fs) (v.tokens ++ (itemTokens vs ++ .closeArray :: ts)) =
        Progress.run (.afterItem [v.toTree] fs) (itemTokens vs ++ .closeArray :: ts) :=
      (run_firstItem v fs _).trans (run_tokens v _ _)
    calc Progress.run (.value fs) ((Value.array (v :: vs)).tokens ++ ts)
      _ = Progress.run (.firstItem fs) (v.tokens ++ (itemTokens vs ++ .closeArray :: ts)) := by
        simp only [tokens, List.cons_append, List.append_assoc, List.nil_append]
        rfl
      _ = Progress.run (.afterItem ((toTrees vs).reverse ++ [v.toTree]) fs) (.closeArray :: ts) := by
        rw [hfirst, run_itemTokens vs]
      _ = Progress.run (.complete (Value.array (v :: vs)).toTree fs) ts := by
        simp only [Progress.run, Progress.step, List.reverse_append, List.reverse_reverse, List.reverse_singleton,
          List.singleton_append, toTree, toTrees]
  | .object .nil, _, _ => rfl
  | .object (.cons k v new ms), fs, ts => by
    calc Progress.run (.value fs) ((Value.object (.cons k v new ms)).tokens ++ ts)
      _ = Progress.run (.value (.member [] (pieces k) :: fs))
          (v.tokens ++ (memberTokens ms ++ .closeObject :: ts)) := by
        simp only [tokens, List.cons_append, List.append_assoc, List.nil_append]
        rfl
      _ = Progress.run (.afterMember [(pieces k, v.toTree)] fs) (memberTokens ms ++ .closeObject :: ts) :=
        run_tokens v _ _
      _ = Progress.run (.afterMember ((toMembers ms).reverse ++ [(pieces k, v.toTree)]) fs) (.closeObject :: ts) :=
        run_memberTokens ms _ _ _
      _ = Progress.run (.complete (Value.object (.cons k v new ms)).toTree fs) ts := by
        simp only [Progress.run, Progress.step, List.reverse_append, List.reverse_reverse, List.reverse_singleton,
          List.singleton_append, toTree, toMembers]

theorem run_itemTokens : ∀ (vs : List Value) (done : List Tree) (fs : List Frame) (ts : List Token),
    Progress.run (.afterItem done fs) (itemTokens vs ++ ts) =
      Progress.run (.afterItem ((toTrees vs).reverse ++ done) fs) ts
  | [], _, _, _ => rfl
  | v :: vs, done, fs, ts => by
    calc Progress.run (.afterItem done fs) (itemTokens (v :: vs) ++ ts)
      _ = Progress.run (.value (.array done :: fs)) (v.tokens ++ (itemTokens vs ++ ts)) := by
        simp only [itemTokens, List.cons_append, List.append_assoc]
        rfl
      _ = Progress.run (.afterItem (v.toTree :: done) fs) (itemTokens vs ++ ts) := run_tokens v _ _
      _ = Progress.run (.afterItem ((toTrees (v :: vs)).reverse ++ done) fs) ts := by
        rw [run_itemTokens vs, toTrees, List.reverse_cons, List.append_assoc, List.singleton_append]

theorem run_memberTokens : ∀ {used : List String} (ms : Members used) (done : List (List Json.StringPiece × Tree))
    (fs : List Frame) (ts : List Token), Progress.run (.afterMember done fs) (memberTokens ms ++ ts) =
      Progress.run (.afterMember ((toMembers ms).reverse ++ done) fs) ts
  | _, .nil, _, _, _ => rfl
  | _, .cons k v new ms, done, fs, ts => by
    calc Progress.run (.afterMember done fs) (memberTokens (.cons k v new ms) ++ ts)
      _ = Progress.run (.value (.member done (pieces k) :: fs)) (v.tokens ++ (memberTokens ms ++ ts)) := by
        simp only [memberTokens, List.cons_append, List.append_assoc]
        rfl
      _ = Progress.run (.afterMember ((pieces k, v.toTree) :: done) fs) (memberTokens ms ++ ts) := run_tokens v _ _
      _ = Progress.run (.afterMember ((toMembers (.cons k v new ms)).reverse ++ done) fs) ts := by
        rw [run_memberTokens ms, toMembers, List.reverse_cons, List.append_assoc, List.singleton_append]

end

/-- The text of a value has the shape of the value. -/
theorem ofText?_write {sp : Spacing} (hsp : sp.Blank) (v : Value) :
    Tree.ofText? (.ofList (v.write sp 0 [])) = some v.toTree := by
  have hrun := run_tokens v [] []
  rw [List.append_nil] at hrun
  rw [Tree.ofText?, String.toList_ofList, ofChars?_write hsp, Option.bind_some, Tree.ofTokens?, hrun]
  rfl

/-! ### Reading the tree -/

mutual

/-- How deep arrays and objects are nested in a value. -/
def nesting : Value → Nat
  | .array vs => nestingItems vs + 1
  | .object fs => nestingMembers fs + 1
  | _ => 0

def nestingItems : List Value → Nat
  | [] => 0
  | v :: vs => max (nesting v) (nestingItems vs)

def nestingMembers {used : List String} : Members used → Nat
  | .nil => 0
  | .cons _ v _ fs => max (nesting v) (nestingMembers fs)

end

mutual

/-- The tree of a value is read as the value exactly if it is nested within the limit. -/
theorem value?_toTree : ∀ (v : Value) (depth : Nat), v.toTree.value? depth = if v.nesting ≤ depth then some v else none
  | .null, _ => by simp [toTree, Tree.value?, nesting]
  | .bool b, _ => by simp [toTree, Tree.value?, nesting]
  | .number n, _ => by simp [toTree, Tree.value?, nesting, n.number?_numeral]
  | .string s, _ => by simp [toTree, Tree.value?, nesting, text?_pieces]
  | .array vs, 0 => by simp [toTree, Tree.value?, nesting]
  | .array vs, depth + 1 => by
    rw [toTree, Tree.value?, mapM_toTrees vs depth, nesting]
    by_cases hle : nestingItems vs ≤ depth
    · rw [if_pos hle, if_pos (by omega), Option.map_some]
    · rw [if_neg hle, if_neg (by omega), Option.map_none]
  | .object fs, 0 => by simp [toTree, Tree.value?, nesting]
  | .object fs, depth + 1 => by
    rw [toTree, Tree.value?, mapM_toMembers fs depth, nesting]
    by_cases hle : nestingMembers fs ≤ depth
    · rw [if_pos hle, if_pos (by omega)]
      exact congrArg (fun ms => some (object ms)) fs.ofList_toList
    · rw [if_neg hle, if_neg (by omega)]
      rfl

theorem mapM_toTrees : ∀ (vs : List Value) (depth : Nat),
    (toTrees vs).mapM (Tree.value? depth) = if nestingItems vs ≤ depth then some vs else none
  | [], _ => by simp [toTrees, nestingItems]
  | v :: vs, depth => by
    rw [toTrees, List.mapM_cons, value?_toTree v depth, mapM_toTrees vs depth, nestingItems]
    by_cases hv : v.nesting ≤ depth <;> by_cases hvs : nestingItems vs ≤ depth <;> simp [hv, hvs]

theorem mapM_toMembers : ∀ {used : List String} (fs : Members used) (depth : Nat),
    (toMembers fs).mapM (fun m => do return (← Json.StringPiece.text? m.1, ← m.2.value? depth)) =
      if nestingMembers fs ≤ depth then some fs.toList else none
  | _, .nil, _ => by simp [toMembers, nestingMembers, Members.toList]
  | _, .cons k v _ fs, depth => by
    rw [toMembers, List.mapM_cons, mapM_toMembers fs depth, nestingMembers, Members.toList]
    simp only [text?_pieces, value?_toTree v depth]
    by_cases hv : v.nesting ≤ depth <;> by_cases hfs : nestingMembers fs ≤ depth <;> simp [hv, hfs]

end

end Value

end CellGraph
