import CellGraph.Json.Value
import CellGraph.Numeric.Layout

/-!
# JSON texts of values

`Value.write` puts the text of a value before a given rest.  A `Spacing` says where lines break: nowhere in the
compact form (`Value.compact`), and after every bracket and comma in the spread form (`Value.pretty`), which indents
by two blanks for each level.
-/

namespace CellGraph

/-- Where the text of a value has blanks. -/
structure Spacing where
  /-- The blanks before an item or a closing bracket at a level of nesting. -/
  lineBreak : Nat → List Char
  /-- The blanks between a colon and its value. -/
  afterColon : List Char

namespace Spacing

/-- No blanks at all. -/
def compact : Spacing := ⟨fun _ => [], []⟩

/-- One item a line, indented by two blanks for each level. -/
def pretty : Spacing := ⟨fun level => '\n' :: List.replicate (2 * level) ' ', [' ']⟩

end Spacing

/-- Doubles in JSON texts: exponents from -5 to 15 are written out by position, an integer keeps `.0`, the sign of an
exponent is always written, and a tie goes to the even digits. -/
def Layout.json : Layout where
  positional k := decide (-5 ≤ k ∧ k ≤ 15)
  pointZero := true
  plusSign := true
  tie := .toEven

/-- The JSON text of a number. -/
def Number.text : Number → List Char
  | .int n _ => (if n < 0 then ['-'] else []) ++ digitsOf n.natAbs
  | .float x _ => Layout.json.write x

/-- One of the sixteen lower-case hexadecimal digits. -/
def hexDigit (n : Nat) : Char := Nat.digitChar (n % 16)

/-- A character inside a JSON string.  The quote, the backslash and the control characters are escaped. -/
def escapeChar (c : Char) : List Char :=
  match c.toNat with
  | 0x22 => ['\\', '"']
  | 0x5C => ['\\', '\\']
  | 0x08 => ['\\', 'b']
  | 0x09 => ['\\', 't']
  | 0x0A => ['\\', 'n']
  | 0x0C => ['\\', 'f']
  | 0x0D => ['\\', 'r']
  | n => if n < 0x20 then ['\\', 'u', '0', '0', hexDigit (n / 16), hexDigit n] else [c]

/-- A text as a JSON string, before a rest. -/
def writeString (s : String) (rest : List Char) : List Char := '"' :: (s.toList.flatMap escapeChar ++ '"' :: rest)

namespace Value

mutual

/-- The text of a value at a level of nesting, before a rest. -/
def write (sp : Spacing) (level : Nat) : Value → List Char → List Char
  | .null, rest => 'n' :: 'u' :: 'l' :: 'l' :: rest
  | .bool true, rest => 't' :: 'r' :: 'u' :: 'e' :: rest
  | .bool false, rest => 'f' :: 'a' :: 'l' :: 's' :: 'e' :: rest
  | .number n, rest => n.text ++ rest
  | .string s, rest => writeString s rest
  | .array [], rest => '[' :: ']' :: rest
  | .array (v :: vs), rest =>
    '[' :: (sp.lineBreak (level + 1) ++ write sp (level + 1) v
      (writeItems sp (level + 1) vs (sp.lineBreak level ++ ']' :: rest)))
  | .object .nil, rest => '\x7b' :: '\x7d' :: rest
  | .object (.cons k v _ fs), rest =>
    '\x7b' :: (sp.lineBreak (level + 1) ++ writeString k (':' :: (sp.afterColon ++ write sp (level + 1) v
      (writeMembers sp (level + 1) fs (sp.lineBreak level ++ '\x7d' :: rest)))))

/-- The items of an array after the first one, before a rest. -/
def writeItems (sp : Spacing) (level : Nat) : List Value → List Char → List Char
  | [], rest => rest
  | v :: vs, rest => ',' :: (sp.lineBreak level ++ write sp level v (writeItems sp level vs rest))

/-- The members of an object after the first one, before a rest. -/
def writeMembers (sp : Spacing) (level : Nat) {used : List String} : Members used → List Char → List Char
  | .nil, rest => rest
  | .cons k v _ fs, rest =>
    ',' :: (sp.lineBreak level ++ writeString k (':' :: (sp.afterColon ++ write sp level v
      (writeMembers sp level fs rest))))

end

/-- The text of a value without blanks. -/
def compact (v : Value) : String := .ofList (v.write .compact 0 [])

/-- The text of a value with one item a line. -/
def pretty (v : Value) : String := .ofList (v.write .pretty 0 [])

end Value

end CellGraph
