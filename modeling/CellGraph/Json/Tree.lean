import CellGraph.Json.Token
import CellGraph.Json.Value

/-!
# Reading JSON

A `Tree` is the shape of a JSON text: numbers are still numerals, strings still pieces, and an object has all its
members, repeated ones too.  `Tree.ofTokens?` builds it token by token over a stack of containers that are part way
through, so deep nesting takes no call depth.  What a tree means is decided when it is used: `Tree.value?` reads it as
a value of limited nesting, with numbers in range and strings well formed, and `Tree.fields?` picks out the named
fields of a structure and does not look at the others.
-/

namespace CellGraph.Json

/-- The shape of a JSON text. -/
inductive Tree where
  | null
  | bool (b : Bool)
  | numeral (n : Numeral)
  | string (ps : List StringPiece)
  | array (items : List Tree)
  | object (members : List (List StringPiece × Tree))
deriving Inhabited

/-! ### Building a tree -/

/-- A container around the value that is being read, with its complete parts, the last one first. -/
inductive Frame where
  | array (done : List Tree)
  | member (done : List (List StringPiece × Tree)) (key : List StringPiece)

/-- How far a text has been read, inside which containers. -/
inductive Progress where
  /-- A value has to come. -/
  | value (fs : List Frame)
  /-- An array was opened. -/
  | firstItem (fs : List Frame)
  /-- An item of an array is complete. -/
  | afterItem (done : List Tree) (fs : List Frame)
  /-- An object was opened. -/
  | firstMember (fs : List Frame)
  /-- A comma stands between two members. -/
  | nextMember (done : List (List StringPiece × Tree)) (fs : List Frame)
  /-- A key was read. -/
  | afterKey (done : List (List StringPiece × Tree)) (key : List StringPiece) (fs : List Frame)
  /-- A member of an object is complete. -/
  | afterMember (done : List (List StringPiece × Tree)) (fs : List Frame)
  /-- The outermost value is complete. -/
  | finished (t : Tree)

namespace Progress

/-- A value is complete. -/
def complete (t : Tree) : List Frame → Progress
  | [] => .finished t
  | .array done :: fs => .afterItem (t :: done) fs
  | .member done key :: fs => .afterMember ((key, t) :: done) fs

/-- A value starts with a token. -/
def start (fs : List Frame) : Token → Option Progress
  | .openArray => some (.firstItem fs)
  | .openObject => some (.firstMember fs)
  | .null => some (complete .null fs)
  | .bool b => some (complete (.bool b) fs)
  | .numeral n => some (complete (.numeral n) fs)
  | .string ps => some (complete (.string ps) fs)
  | _ => none

/-- One token is read. -/
def step : Progress → Token → Option Progress
  | .value fs, t => start fs t
  | .firstItem fs, .closeArray => some (complete (.array []) fs)
  | .firstItem fs, t => start (.array [] :: fs) t
  | .afterItem done fs, .comma => some (.value (.array done :: fs))
  | .afterItem done fs, .closeArray => some (complete (.array done.reverse) fs)
  | .firstMember fs, .closeObject => some (complete (.object []) fs)
  | .firstMember fs, .string key => some (.afterKey [] key fs)
  | .nextMember done fs, .string key => some (.afterKey done key fs)
  | .afterKey done key fs, .colon => some (.value (.member done key :: fs))
  | .afterMember done fs, .comma => some (.nextMember done fs)
  | .afterMember done fs, .closeObject => some (complete (.object done.reverse) fs)
  | _, _ => none

/-- Tokens are read one after the other. -/
def run : Progress → List Token → Option Progress
  | p, [] => some p
  | p, t :: ts =>
    match step p t with
    | some q => run q ts
    | none => none

end Progress

namespace Tree

/-! ### Reading a tree -/

def ofTokens? (ts : List Token) : Option Tree :=
  match Progress.run (.value []) ts with
  | some (.finished t) => some t
  | _ => none

def ofText? (s : String) : Option Tree := (Token.ofChars? s.toList).bind ofTokens?

/-- The deepest nesting of arrays and objects that is read. -/
def nestingLimit : Nat := 127

/-- The value of a tree whose arrays and objects are nested at most `depth` deep.  A repeated key of an object keeps
its first place and its last value. -/
def value? : Nat → Tree → Option Value
  | _, .null => some .null
  | _, .bool b => some (.bool b)
  | _, .numeral n => n.number?.map .number
  | _, .string ps => (StringPiece.text? ps).map .string
  | 0, .array _ => none
  | 0, .object _ => none
  | depth + 1, .array ts => (ts.mapM (value? depth)).map .array
  | depth + 1, .object ms => do
    let fs ← ms.mapM fun m => do return (← StringPiece.text? m.1, ← value? depth m.2)
    return .object (.ofList fs)

/-- The fields of a structure, in the order of their names.  An object has them as members in any order, at most one
of each name, and its other members are not looked at.  An array has them in the given order, and the last ones can
be missing. -/
def fields? (names : List String) : Tree → Option (List (Option Tree))
  | .array ts =>
    if ts.length ≤ names.length then some (ts.map some ++ List.replicate (names.length - ts.length) none) else none
  | .object ms => do
    let fs ← ms.mapM fun m => do return (← StringPiece.text? m.1, m.2)
    names.mapM fun name =>
      match fs.filter (·.1 == name) with
      | [] => some none
      | [f] => some (some f.2)
      | _ => none
  | _ => none

def text? : Tree → Option String
  | .string ps => StringPiece.text? ps
  | _ => none

/-- A natural number that fits in 32 bits, written as an integer. -/
def word? : Tree → Option UInt32
  | .numeral n =>
    match n.number? with
    | some (.int i _) => if 0 ≤ i ∧ i.toNat < UInt32.size then some (UInt32.ofNat i.toNat) else none
    | _ => none
  | _ => none

def bool? : Tree → Option Bool
  | .bool b => some b
  | _ => none

def items? : Tree → Option (List Tree)
  | .array ts => some ts
  | _ => none

end Tree

end CellGraph.Json

def CellGraph.Value.ofText? (s : String) : Option CellGraph.Value :=
  (CellGraph.Json.Tree.ofText? s).bind (CellGraph.Json.Tree.value? CellGraph.Json.Tree.nestingLimit)
