import CellGraph.Json.Printer

/-!
# JSON texts on streams

A value is written to a stream piece by piece, in the order of its text (`Value.writeTo`).  A stream takes a number of
bytes and then fails.  Of the piece that does not fit it keeps the bytes that do, and no piece is written after it.
-/

namespace CellGraph

/-- A stream with the bytes that were written to it and the number of bytes that it still takes. -/
structure Sink where
  written : ByteArray
  room : Nat

/-- Why a text is not written. -/
inductive WriteError where
  /-- The stream takes no more bytes. -/
  | full
deriving DecidableEq

namespace Sink

/-- A stream that takes a number of bytes, before anything is written. -/
def ofRoom (room : Nat) : Sink := ⟨.empty, room⟩

/-- The bytes of a piece of a text. -/
def bytes (piece : List Char) : ByteArray := (String.ofList piece).toUTF8

/-- Writes a piece of a text. -/
def put (piece : List Char) : EStateM WriteError Sink Unit := fun s =>
  let after : Sink := ⟨s.written ++ (bytes piece).extract 0 s.room, s.room - (bytes piece).size⟩
  if (bytes piece).size ≤ s.room then .ok () after else .error .full after

/-- Writes a text as a JSON string, one character after the other. -/
def putString (s : String) : EStateM WriteError Sink Unit := do
  put ['"']
  s.toList.forM fun c => put (escapeChar c)
  put ['"']

end Sink

namespace Value

open Sink

mutual

/-- Writes the text of a value at a level of nesting. -/
def writeTo (sp : Spacing) (level : Nat) : Value → EStateM WriteError Sink Unit
  | .null => put ['n', 'u', 'l', 'l']
  | .bool true => put ['t', 'r', 'u', 'e']
  | .bool false => put ['f', 'a', 'l', 's', 'e']
  | .number n => put n.text
  | .string s => putString s
  | .array [] => do
    put ['[']
    put [']']
  | .array (v :: vs) => do
    put ['[']
    put (sp.lineBreak (level + 1))
    writeTo sp (level + 1) v
    writeItemsTo sp (level + 1) vs
    put (sp.lineBreak level)
    put [']']
  | .object .nil => do
    put ['\x7b']
    put ['\x7d']
  | .object (.cons k v _ fs) => do
    put ['\x7b']
    put (sp.lineBreak (level + 1))
    putString k
    put [':']
    put sp.afterColon
    writeTo sp (level + 1) v
    writeMembersTo sp (level + 1) fs
    put (sp.lineBreak level)
    put ['\x7d']

/-- Writes the items of an array after the first one. -/
def writeItemsTo (sp : Spacing) (level : Nat) : List Value → EStateM WriteError Sink Unit
  | [] => pure ()
  | v :: vs => do
    put [',']
    put (sp.lineBreak level)
    writeTo sp level v
    writeItemsTo sp level vs

/-- Writes the members of an object after the first one. -/
def writeMembersTo (sp : Spacing) (level : Nat) {used : List String} : Members used → EStateM WriteError Sink Unit
  | .nil => pure ()
  | .cons k v _ fs => do
    put [',']
    put (sp.lineBreak level)
    putString k
    put [':']
    put sp.afterColon
    writeTo sp level v
    writeMembersTo sp level fs

end

end Value

end CellGraph
