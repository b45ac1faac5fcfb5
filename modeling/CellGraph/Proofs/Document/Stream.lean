import CellGraph.Proofs.Graph.Reachable

/-!
# Writing a graph to a stream

Writing one piece after the other is the same as writing them in one, wherever the stream fails (`Sink.put_append`).  So
the pieces of a value leave on a stream what its whole text does (`Value.writeTo_put`), and a stream that has not enough
room for the text of a graph keeps the bytes that fit (`Graph.dumpTo_run`).
-/

namespace CellGraph

namespace Sink

variable {s : Sink} {piece : List Char}

theorem bytes_nil : bytes [] = .empty := rfl

theorem bytes_append (as bs : List Char) : bytes (as ++ bs) = bytes as ++ bytes bs := by
  rw [bytes, String.ofList_append]
  rfl

private theorem extract_of_size_le {b : ByteArray} {n : Nat} (h : b.size ≤ n) : b.extract 0 n = b := by
  rw [← Nat.max_eq_left h]
  exact ByteArray.extract_zero_max_size

/-- A piece that fits. -/
theorem put_of_le (h : (bytes piece).size ≤ s.room) :
    put piece s = .ok () ⟨s.written ++ bytes piece, s.room - (bytes piece).size⟩ := by
  rw [put, if_pos h, extract_of_size_le h]

/-- A piece that does not fit. -/
theorem put_of_lt (h : s.room < (bytes piece).size) :
    put piece s = .error .full ⟨s.written ++ (bytes piece).extract 0 s.room, 0⟩ := by
  rw [put, if_neg (Nat.not_le.2 h), Nat.sub_eq_zero_of_le h.le]

/-- Writing nothing. -/
theorem put_nil : put [] = pure () := by
  funext s
  rw [put_of_le (Nat.zero_le _), bytes_nil, ByteArray.append_empty]
  rfl

/-- Writing two pieces is writing both in one, also if the stream fails at the first of them. -/
theorem put_append (as bs : List Char) : put (as ++ bs) = (do put as; put bs) := by
  funext s
  show _ = EStateM.bind (put as) (fun _ => put bs) s
  have hsize : (bytes (as ++ bs)).size = (bytes as).size + (bytes bs).size := by
    rw [bytes_append, ByteArray.size_append]
  rcases Nat.lt_or_ge s.room (bytes as).size with hfirst | hfirst
  · have hboth : s.room < (bytes (as ++ bs)).size := by omega
    have hnone : s.room - (bytes as).size = 0 := by omega
    rw [EStateM.bind, put_of_lt hfirst, put_of_lt hboth, bytes_append, ByteArray.extract_append, hnone, Nat.zero_sub,
      ByteArray.extract_same, ByteArray.append_empty]
  · -- the second piece is written with the room that the first one leaves
    rw [EStateM.bind, put_of_le hfirst]
    show _ = put bs ⟨s.written ++ bytes as, s.room - (bytes as).size⟩
    generalize hs : Sink.mk (s.written ++ bytes as) (s.room - (bytes as).size) = t
    have hroom : t.room = s.room - (bytes as).size := by rw [← hs]
    have hwritten : t.written = s.written ++ bytes as := by rw [← hs]
    rcases Nat.lt_or_ge t.room (bytes bs).size with hrest | hrest
    · have hboth : s.room < (bytes (as ++ bs)).size := by omega
      rw [put_of_lt hrest, put_of_lt hboth, bytes_append, ByteArray.extract_append, extract_of_size_le hfirst,
        Nat.zero_sub, ← ByteArray.append_assoc, hwritten, hroom]
    · have hboth : (bytes (as ++ bs)).size ≤ s.room := by omega
      rw [put_of_le hrest, put_of_le hboth, hsize, bytes_append, ← ByteArray.append_assoc, ← Nat.sub_sub, hwritten,
        hroom]

private theorem forM_put (cs rest : List Char) :
    (do cs.forM fun c => put (escapeChar c); put rest) = put (cs.flatMap escapeChar ++ rest) := by
  induction cs with
  | nil => exact pure_bind _ _
  | cons c cs ih =>
    rw [List.flatMap_cons, List.append_assoc, put_append (escapeChar c), ← ih]
    exact bind_assoc _ _ _

/-- Writing a string and then the rest is writing both in one. -/
theorem putString_put (t : String) (rest : List Char) : (do putString t; put rest) = put (writeString t rest) := by
  simp only [putString, bind_assoc]
  simp only [← put_append, forM_put]
  rfl

end Sink

namespace Value

open Sink

variable {sp : Spacing}

mutual

/-- Writing a value and then the rest is writing both in one. -/
theorem writeTo_put (level : Nat) :
    ∀ (v : Value) (rest : List Char), (do v.writeTo sp level; put rest) = put (v.write sp level rest)
  | .null, rest => (put_append ['n', 'u', 'l', 'l'] rest).symm
  | .bool true, rest => (put_append ['t', 'r', 'u', 'e'] rest).symm
  | .bool false, rest => (put_append ['f', 'a', 'l', 's', 'e'] rest).symm
  | .number n, rest => (put_append n.text rest).symm
  | .string s, rest => putString_put s rest
  | .array [], rest => by
    simp only [writeTo, bind_assoc]
    simp only [← put_append]
    rfl
  | .array (v :: vs), rest => by
    simp only [writeTo, bind_assoc]
    simp only [← put_append, writeItemsTo_put (level + 1) vs, writeTo_put (level + 1) v]
    rfl
  | .object .nil, rest => by
    simp only [writeTo, bind_assoc]
    simp only [← put_append]
    rfl
  | .object (.cons k v _ fs), rest => by
    simp only [writeTo, bind_assoc]
    simp only [← put_append, writeMembersTo_put (level + 1) fs, writeTo_put (level + 1) v, putString_put]
    rfl

theorem writeItemsTo_put (level : Nat) :
    ∀ (vs : List Value) (rest : List Char),
      (do writeItemsTo sp level vs; put rest) = put (writeItems sp level vs rest)
  | [], rest => pure_bind _ _
  | v :: vs, rest => by
    simp only [writeItemsTo, bind_assoc]
    simp only [← put_append, writeItemsTo_put level vs, writeTo_put level v]
    rfl

theorem writeMembersTo_put (level : Nat) :
    ∀ {used : List String} (fs : Members used) (rest : List Char),
      (do writeMembersTo sp level fs; put rest) = put (writeMembers sp level fs rest)
  | _, .nil, rest => pure_bind _ _
  | _, .cons k v _ fs, rest => by
    simp only [writeMembersTo, bind_assoc]
    simp only [← put_append, writeMembersTo_put level fs, writeTo_put level v, putString_put]
    rfl

end

/-- Writing a value is writing its text in one. -/
theorem writeTo_eq (level : Nat) (v : Value) : v.writeTo sp level = put (v.write sp level []) := by
  rw [← writeTo_put, put_nil]
  exact (bind_pure _).symm

end Value

namespace Graph

/-- The JSON text of a graph is that of its document, with the spacing that the options ask for. -/
private theorem dump_eq (g : Graph) :
    g.dump = .ofList (g.document.toJson.write (if g.config.prettyDump then .pretty else .compact) 0 []) := by
  rw [dump]
  split
  · rfl
  · rfl

/-- What a stream has after the JSON text of a graph is written to it, whatever it had before. -/
theorem dumpTo_run (g : Graph) (s : Sink) :
    g.dumpTo.run s =
      if g.dump.toUTF8.size ≤ s.room then .ok () ⟨s.written ++ g.dump.toUTF8, s.room - g.dump.toUTF8.size⟩
      else .error .malformed ⟨s.written ++ g.dump.toUTF8.extract 0 s.room, 0⟩ := by
  have htext : g.dump.toUTF8 = Sink.bytes (g.document.toJson.write (if g.config.prettyDump then .pretty else .compact)
      0 []) := by rw [dump_eq, Sink.bytes]
  rw [dumpTo, Value.writeTo_eq, htext]
  generalize g.document.toJson.write _ 0 [] = text
  show EStateM.adaptExcept _ (Sink.put text) s = _
  split
  · rename_i hroom
    rw [EStateM.adaptExcept, Sink.put_of_le hroom]
  · rename_i hroom
    rw [EStateM.adaptExcept, Sink.put_of_lt (Nat.not_le.1 hroom)]
    rfl

/-- A stream with enough room. -/
theorem dumpWithin_of_le {g : Graph} {room : Nat} (h : g.dump.toUTF8.size ≤ room) :
    g.dumpWithin room = (g.dump.toUTF8, .ok ()) := by
  rw [dumpWithin, dumpTo_run, Sink.ofRoom, if_pos h]
  exact congrArg (·, _) ByteArray.empty_append

/-- A stream with too little room. -/
theorem dumpWithin_of_lt {g : Graph} {room : Nat} (h : room < g.dump.toUTF8.size) :
    g.dumpWithin room = (g.dump.toUTF8.extract 0 room, .error .malformed) := by
  rw [dumpWithin, dumpTo_run, Sink.ofRoom, if_neg (Nat.not_le.2 h)]
  exact congrArg (·, _) ByteArray.empty_append

/-- A stream that takes a number of bytes has as many of the bytes of the JSON text as it takes.  That is no fault exactly
if it takes all of them, and otherwise the document counts as malformed. -/
theorem dumpWithin_exact (g : Graph) (room : Nat) :
    (g.dumpWithin room).1 = g.dump.toUTF8.extract 0 (min room g.dump.toUTF8.size) ∧
      (g.dumpWithin room).2 = if g.dump.toUTF8.size ≤ room then .ok () else .error .malformed := by
  rcases Nat.lt_or_ge room g.dump.toUTF8.size with h | h
  · rw [dumpWithin_of_lt h, Nat.min_eq_left h.le, if_neg (Nat.not_le.2 h)]
    exact ⟨rfl, rfl⟩
  · rw [dumpWithin_of_le h, Nat.min_eq_right h, if_pos h, ByteArray.extract_zero_size]
    exact ⟨rfl, rfl⟩

/-- The JSON text of a graph is not empty: it is an object. -/
theorem size_dump_pos (g : Graph) : 0 < g.dump.toUTF8.size := by
  obtain ⟨rest, hrest⟩ : ∃ rest, g.document.toJson.write (if g.config.prettyDump then .pretty else .compact) 0 [] =
      ['\x7b'] ++ rest := ⟨_, rfl⟩
  have hbytes : g.dump.toUTF8 = Sink.bytes ['\x7b'] ++ Sink.bytes rest := by
    rw [dump_eq, hrest, ← Sink.bytes_append, Sink.bytes]
  rw [hbytes, ByteArray.size_append]
  exact Nat.add_pos_left (show 0 < (Sink.bytes ['\x7b']).size by decide) _

/-- A stream that takes nothing fails, and that does not count as a fault of the stream. -/
theorem dumpWithin_ne_stream_of_full :
    initial.Reachable ∧ 0 < initial.dump.toUTF8.size ∧ (initial.dumpWithin 0).1 = .empty ∧
      (initial.dumpWithin 0).2 = .error .malformed ∧ (initial.dumpWithin 0).2 ≠ .error .stream := by
  have hsize : 0 < initial.dump.toUTF8.size := initial.size_dump_pos
  rw [dumpWithin_of_lt hsize, ByteArray.extract_same]
  exact ⟨.new .standard, hsize, rfl, rfl, by decide⟩

end Graph

end CellGraph
