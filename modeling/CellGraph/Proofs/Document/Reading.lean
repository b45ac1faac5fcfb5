import CellGraph.Proofs.Document.TextRoundTrip
import CellGraph.Proofs.Json.Reading
import CellGraph.Proofs.Json.Same

/-!
# Writing what was read

Whatever a text spells out, the record that is read from it has no two matching keys in its table, no constant that is
not finite, and its values are nested within the limit (`Record.ofTree?_sound`).  These are the records that are read
again from their JSON form, so a document, a record or the options of a graph that were read from any text are read again
from their own (`rereads`).
-/

namespace CellGraph

open Json (Tree)
open Json.StringPiece (pieces text?_pieces)

/-! ### Fields -/

theorem readField_eq_some {α : Type} {read? : Tree → Option α} {default a : α} {field : Option Tree}
    (h : readField read? default field = some a) : default = a ∨ ∃ t, read? t = some a := by
  rcases field with _ | t
  · exact Or.inl (Option.some.inj h)
  · exact Or.inr ⟨t, h⟩

theorem readNullable_eq_some {α : Type} {read? : Tree → Option α} {a : α} {field : Option Tree}
    (h : readNullable read? field = some (some a)) : ∃ t, read? t = some a := by
  unfold readNullable at h
  split at h
  · nomatch h
  · nomatch h
  · rename_i t _
    obtain ⟨b, hb, heq⟩ := Option.map_eq_some_iff.1 h
    exact ⟨t, hb.trans heq⟩

/-! ### Formulas -/

/-- A constant that is read is finite. -/
theorem Formula.isFinite_of_ofTree? {t : Tree} {f : Formula} (h : ofTree? t = some f) : f.isFinite = true := by
  cases t with
  | numeral n =>
    obtain ⟨m, -, rfl⟩ := Option.map_eq_some_iff.1 h
    exact m.isFinite_toFloat
  | string ps =>
    obtain ⟨s, -, rfl⟩ := Option.map_eq_some_iff.1 h
    rfl
  | _ => nomatch h

/-! ### Tables -/

namespace Table

/-- The keys and the values of a table come from the list it is made of, and no two keys match. -/
theorem ofList_sound (es : List (Value × Value)) :
    ((ofList es).keys.Pairwise fun k l => k.keyMatches l = false) ∧
      ∀ e ∈ (ofList es).entries, (∃ d ∈ es, d.1 = e.1) ∧ ∃ d ∈ es, d.2 = e.2 := by
  induction es using List.reverseRecOn with
  | nil => exact ⟨.nil, nofun⟩
  | append_singleton es last ih =>
    obtain ⟨hdistinct, hsource⟩ := ih
    have hinsert : ofList (es ++ [last]) = (ofList es).insert last.1 last.2 := List.foldl_append ..
    have hold : ∀ d ∈ es, d ∈ es ++ [last] := fun d hd => List.mem_append_left _ hd
    have hlast : last ∈ es ++ [last] := List.mem_append_right _ (List.mem_singleton_self _)
    have holdKey : ∀ e ∈ (ofList es).entries, ∃ d ∈ es ++ [last], d.1 = e.1 := by
      intro e he
      obtain ⟨⟨d, hd, hkey⟩, -⟩ := hsource e he
      exact ⟨d, hold d hd, hkey⟩
    rw [hinsert]
    refine ⟨distinct_insert hdistinct .., fun e he => ?_⟩
    rcases mem_entries_insert he with he | ⟨hvalue, hkey | ⟨d, hd, hkey⟩⟩
    · obtain ⟨-, d, hd, hvalue⟩ := hsource e he
      exact ⟨holdKey e he, d, hold d hd, hvalue⟩
    · exact ⟨⟨last, hlast, hkey.symm⟩, last, hlast, hvalue.symm⟩
    · exact ⟨hkey ▸ holdKey d hd, last, hlast, hvalue.symm⟩

theorem ofTree?_sound {depth : Nat} {t : Tree} {s : Table} (h : ofTree? depth t = some s) :
    ofList s.entries = s ∧ s.Shallow depth := by
  obtain ⟨ts, -, h⟩ := Option.bind_eq_some_iff.1 h
  obtain ⟨es, hes, h⟩ := Option.bind_eq_some_iff.1 h
  obtain rfl := Option.some.inj h
  obtain ⟨hdistinct, hsource⟩ := ofList_sound es
  have hentry : ∀ e ∈ es, e.1.nesting ≤ depth ∧ e.2.nesting ≤ depth := by
    intro e he
    obtain ⟨t, -, ht⟩ := exists_of_mem_mapM hes e he
    obtain ⟨items, -, ht⟩ := Option.bind_eq_some_iff.1 ht
    split at ht
    · obtain ⟨key, hkey, ht⟩ := Option.bind_eq_some_iff.1 ht
      obtain ⟨v, hv, ht⟩ := Option.bind_eq_some_iff.1 ht
      obtain rfl := Option.some.inj ht
      exact ⟨Tree.nesting_le_of_value? hkey, Tree.nesting_le_of_value? hv⟩
    · nomatch ht
  refine ⟨ofList_of_distinct hdistinct, fun e he => ?_⟩
  obtain ⟨⟨c, hc, hkey⟩, d, hd, hvalue⟩ := hsource e he
  exact ⟨hkey ▸ (hentry c hc).1, hvalue ▸ (hentry d hd).2⟩

end Table

/-! ### Records -/

namespace Record

/-- A record that is read again from its JSON form, where its own fields can be nested `depth` deep. -/
structure Writable (depth : Nat) (r : Record) : Prop where
  table : Table.ofList r.table.entries = r.table
  shallow : r.Shallow depth
  finite : ∀ f ∈ r.formula, f.isFinite = true

theorem Writable.ofTree?_toTree {depth : Nat} {r : Record} (h : r.Writable depth) :
    ofTree? depth r.toJson.toTree = some r := by
  rw [Record.ofTree?_toTree h.table, if_pos h.shallow, written_eq_self_iff.2 h.finite]

theorem ofTree?_sound {depth : Nat} {t : Tree} {r : Record} (h : ofTree? depth t = some r) : r.Writable depth := by
  obtain ⟨fields, -, h⟩ := Option.bind_eq_some_iff.1 h
  split at h
  · rename_i idField nameField formulaField inputsField tableField fallbackField precisionField
    obtain ⟨id, -, h⟩ := Option.bind_eq_some_iff.1 h
    obtain ⟨name, -, h⟩ := Option.bind_eq_some_iff.1 h
    obtain ⟨formula, hformula, h⟩ := Option.bind_eq_some_iff.1 h
    obtain ⟨inputs, -, h⟩ := Option.bind_eq_some_iff.1 h
    obtain ⟨table, htable, h⟩ := Option.bind_eq_some_iff.1 h
    obtain ⟨fallback, hfallback, h⟩ := Option.bind_eq_some_iff.1 h
    obtain ⟨precision, -, h⟩ := Option.bind_eq_some_iff.1 h
    obtain rfl := Option.some.inj h
    have hfinite : ∀ f ∈ formula, f.isFinite = true := by
      rintro f rfl
      obtain ⟨t, ht⟩ := readNullable_eq_some hformula
      exact Formula.isFinite_of_ofTree? ht
    have hvalue : ∀ v ∈ fallback, v.nesting ≤ depth := by
      rintro v rfl
      rcases readField_eq_some hfallback with hnone | ⟨t, ht⟩
      · nomatch hnone
      · obtain ⟨w, hw, heq⟩ := Option.map_eq_some_iff.1 ht
        obtain rfl := Option.some.inj heq
        exact Tree.nesting_le_of_value? hw
    have htable' : Table.ofList table.entries = table ∧ table.Shallow (depth - 2) := by
      rcases readField_eq_some htable with rfl | ⟨t, ht⟩
      · exact ⟨rfl, nofun⟩
      · exact Table.ofTree?_sound ht
    obtain ⟨hentries, hshallow⟩ := htable'
    exact ⟨hentries, ⟨hshallow, hvalue⟩, hfinite⟩
  · nomatch h

/-- A record that was read from a text is read from its own text. -/
theorem ofText?_write_of_ofText? {s : String} {r : Record} (h : ofText? s = some r) {sp : Spacing} (hsp : sp.Blank) :
    ofText? (.ofList (r.toJson.write sp 0 [])) = some r := by
  obtain ⟨t, -, ht⟩ := Option.bind_eq_some_iff.1 h
  rw [ofText?, Value.ofText?_write hsp, Option.bind_some, (ofTree?_sound ht).ofTree?_toTree]

end Record

/-! ### Documents and options -/

theorem Document.ofText?_write_of_ofText? {s : String} {d : Document} (h : ofText? s = some d) {sp : Spacing}
    (hsp : sp.Blank) : ofText? (.ofList (d.toJson.write sp 0 [])) = some d := by
  obtain ⟨t, -, ht⟩ := Option.bind_eq_some_iff.1 h
  have hwritable : ∀ r ∈ d.nodes, r.Writable (Tree.nestingLimit - 3) := by
    obtain ⟨fields, -, ht⟩ := Option.bind_eq_some_iff.1 ht
    split at ht
    · obtain ⟨edges, -, ht⟩ := Option.bind_eq_some_iff.1 ht
      obtain ⟨edges, -, ht⟩ := Option.bind_eq_some_iff.1 ht
      obtain ⟨ts, -, ht⟩ := Option.bind_eq_some_iff.1 ht
      obtain ⟨nodes, hnodes, ht⟩ := Option.bind_eq_some_iff.1 ht
      obtain rfl := Option.some.inj ht
      intro r hr
      obtain ⟨t, -, ht⟩ := exists_of_mem_mapM hnodes r hr
      exact Record.ofTree?_sound ht
    · nomatch ht
  have hshallow : ∀ r ∈ d.nodes, r.Shallow (Tree.nestingLimit - 3) := fun r hr => (hwritable r hr).shallow
  rw [ofText?_write (fun r hr => (hwritable r hr).table) hsp, if_pos hshallow,
    written_eq_self_iff.2 fun r hr => (hwritable r hr).finite]

/-- The text of options is read as the options, whether or not they were read from a text. -/
theorem Config.ofText?_write (c : Config) {sp : Spacing} (hsp : sp.Blank) :
    ofText? (.ofList (c.toJson.write sp 0 [])) = some c := by
  have hfields : c.toJson.toTree.fields? fieldNames =
      some [some (.string (pieces c.rootName)), some (.string (pieces c.rootFormula)), some (.bool c.prettyDump)] :=
    fields?_toTree fieldNames _ (by simp)
  have hrootName : readField Tree.text? standard.rootName (some (.string (pieces c.rootName))) = some c.rootName :=
    text?_pieces _
  have hrootFormula : readField Tree.text? standard.rootFormula (some (.string (pieces c.rootFormula))) =
      some c.rootFormula := text?_pieces _
  rw [ofText?, Value.ofText?_write hsp, Option.bind_some, ofTree?, hfields]
  simp only [Option.bind_eq_bind, Option.bind_some, hrootName, hrootFormula]
  rfl

/-! ### All texts -/

/-- A text written again: what is read of it, in a way of writing. -/
def rewrite? {α : Type} (read? : String → Option α) (write : α → String) (s : String) : Option String :=
  (read? s).map write

/-- Whether everything that is read is read again from its own text.  Then a text that was written again stays as it is
when it is written once more. -/
structure Rereads {α : Type} (read? : String → Option α) (write : α → String) : Prop where
  again : ∀ {s x}, read? s = some x → read? (write x) = some x
  idempotent : ∀ {s t}, rewrite? read? write s = some t → rewrite? read? write t = some t

theorem Rereads.of_again {α : Type} {read? : String → Option α} {write : α → String}
    (h : ∀ {s x}, read? s = some x → read? (write x) = some x) : Rereads read? write := by
  refine ⟨h, fun {s t} ht => ?_⟩
  obtain ⟨x, hx, rfl⟩ := Option.map_eq_some_iff.1 ht
  rw [rewrite?, h hx, Option.map_some]

/-- Whatever text a document, a record or options are read from, they are read again from their own text, be it written
without blanks or with one item a line. -/
theorem rereads :
    Rereads Document.ofText? (fun d => d.toJson.compact) ∧ Rereads Document.ofText? (fun d => d.toJson.pretty) ∧
    Rereads Record.ofText? (fun r => r.toJson.compact) ∧ Rereads Record.ofText? (fun r => r.toJson.pretty) ∧
    Rereads Config.ofText? (fun c => c.toJson.compact) ∧ Rereads Config.ofText? (fun c => c.toJson.pretty) :=
  ⟨.of_again fun h => Document.ofText?_write_of_ofText? h Spacing.blank_compact,
    .of_again fun h => Document.ofText?_write_of_ofText? h Spacing.blank_pretty,
    .of_again fun h => Record.ofText?_write_of_ofText? h Spacing.blank_compact,
    .of_again fun h => Record.ofText?_write_of_ofText? h Spacing.blank_pretty,
    .of_again fun {_ c} _ => c.ofText?_write Spacing.blank_compact,
    .of_again fun {_ c} _ => c.ofText?_write Spacing.blank_pretty⟩

/-- A record is written in one way only, here one that is given as an array without its last field, with an integer for
its constant and with keys that are `null`, match or are repeated. -/
theorem rereads_of_array :
    let rewrite := rewrite? Record.ofText? fun r => r.toJson.compact
    let written := "\x7b\"id\":3,\"name\":\"a\",\"formula\":7.0,\"inputs\":[]," ++
      "\"enum\":[[null,5],[2,4]],\"fallback\":null\x7d"
    rewrite "[3, \"a\", 7, [], [[null, 1], [2, 3], [2.0, 4], [null, 5]], null]" = some written ∧
      rewrite written = some written := by
  intro rewrite written
  have hwritten : rewrite "[3, \"a\", 7, [], [[null, 1], [2, 3], [2.0, 4], [null, 5]], null]" = some written := by
    decide +kernel
  exact ⟨hwritten, rereads.2.2.1.idempotent hwritten⟩

end CellGraph
