import CellGraph.Numeric.Numeral

/-!
# JSON tokens

`Token.ofChars?` cuts a JSON text into brackets, commas, colons, words, numerals and strings.  A string is kept as
its pieces, characters and character codes: whether two codes form a pair of surrogates is decided by
`StringPiece.text?` when the string is needed, and so is the size of a number.
-/

namespace CellGraph.Json

/-- A part of a JSON string. -/
inductive StringPiece where
  /-- A character, written as it is or by a short escape. -/
  | char (c : Char)
  /-- A UTF-16 code unit, written by four hexadecimal digits. -/
  | unit (n : Nat)
deriving DecidableEq, Repr

namespace StringPiece

/-- The characters of a string, in front of those read before.  A code unit of the upper half of a pair of surrogates
has to be followed by one of the lower half, and that one may not stand alone. -/
def chars? : List StringPiece → List Char → Option (List Char)
  | [], done => some done.reverse
  | .char c :: ps, done => chars? ps (c :: done)
  | .unit n :: ps, done =>
    if 0xD800 ≤ n && n < 0xDC00 then
      match ps with
      | .unit m :: qs =>
        if 0xDC00 ≤ m && m < 0xE000 then
          chars? qs (Char.ofNat (0x10000 + (n - 0xD800) * 0x400 + (m - 0xDC00)) :: done)
        else none
      | _ => none
    else if 0xDC00 ≤ n && n < 0xE000 then none
    else chars? ps (Char.ofNat n :: done)

/-- The text of a string, if its surrogates are paired. -/
def text? (ps : List StringPiece) : Option String := (chars? ps []).map String.ofList

end StringPiece

/-- A token of a JSON text. -/
inductive Token where
  | openArray
  | closeArray
  | openObject
  | closeObject
  | comma
  | colon
  | null
  | bool (b : Bool)
  | numeral (n : Numeral)
  | string (ps : List StringPiece)
deriving DecidableEq, Repr

/-- The blanks of JSON. -/
def isSpace (c : Char) : Bool := c == ' ' || c == '\t' || c == '\n' || c == '\r'

/-- The value of a hexadecimal digit. -/
def hexValue? (c : Char) : Option Nat :=
  let n := c.toNat
  if 48 ≤ n && n ≤ 57 then some (n - 48)
  else if 65 ≤ n && n ≤ 70 then some (n - 55)
  else if 97 ≤ n && n ≤ 102 then some (n - 87)
  else none

/-- The number that four hexadecimal digits denote. -/
def hexUnit? (a b c d : Char) : Option Nat := do
  let a ← hexValue? a
  let b ← hexValue? b
  let c ← hexValue? c
  let d ← hexValue? d
  return ((a * 16 + b) * 16 + c) * 16 + d

/-- The character that a short escape stands for. -/
def unescape? (c : Char) : Option Char :=
  match c with
  | '"' => some '"'
  | '\\' => some '\\'
  | '/' => some '/'
  | 'b' => some '\x08'
  | 'f' => some '\x0c'
  | 'n' => some '\n'
  | 'r' => some '\r'
  | 't' => some '\t'
  | _ => none

/-- The pieces of a string up to its closing quote, behind those read before, and the rest.  A control character has
to be escaped. -/
def scanString? : List Char → List StringPiece → Option (List StringPiece × List Char)
  | [], _ => none
  | '"' :: cs, done => some (done.reverse, cs)
  | '\\' :: 'u' :: a :: b :: c :: d :: cs, done =>
    match hexUnit? a b c d with
    | some n => scanString? cs (.unit n :: done)
    | none => none
  | '\\' :: c :: cs, done =>
    match unescape? c with
    | some e => scanString? cs (.char e :: done)
    | none => none
  | c :: cs, done => if c.toNat < 0x20 then none else scanString? cs (.char c :: done)

/-- The numeral without its sign at the start of a text, and the rest.  It has a digit before the point, one after
the point, and no leading zero. -/
def scanSize? (negative : Bool) (cs : List Char) : Option (Numeral × List Char) :=
  match cs.takeWhile isDigit with
  | [] => none
  | '0' :: _ :: _ => none
  | whole =>
    match Numeral.scanFraction (cs.dropWhile isDigit) with
    | (some [], _) => none
    | (fraction, rest) =>
      match Numeral.scanExponent? digitsValue rest with
      | some (exponent, rest) => some (⟨negative, whole, fraction, exponent⟩, rest)
      | none => none

/-! ### What a scan leaves -/

private theorem length_dropWhile_le (p : Char → Bool) (cs : List Char) : (cs.dropWhile p).length ≤ cs.length :=
  (List.dropWhile_suffix p).length_le

private theorem length_dropWhile_lt {p : Char → Bool} {cs : List Char} (h : cs.takeWhile p ≠ []) :
    (cs.dropWhile p).length < cs.length := by
  have := congrArg List.length (List.takeWhile_append_dropWhile (p := p) (l := cs))
  have := List.length_pos_iff.2 h
  grind

private theorem length_scanFraction (cs : List Char) : (Numeral.scanFraction cs).2.length ≤ cs.length := by
  unfold Numeral.scanFraction
  split
  · have := length_dropWhile_le isDigit
    grind
  · exact Nat.le_refl _

private theorem length_scanSign (cs : List Char) : (Numeral.scanSign cs).2.length ≤ cs.length := by
  unfold Numeral.scanSign
  split <;> simp

private theorem length_scanExponent? {value : List Char → Nat} {cs rest : List Char} {e : Option Int}
    (h : Numeral.scanExponent? value cs = some (e, rest)) : rest.length ≤ cs.length := by
  cases cs with
  | nil => simp_all [Numeral.scanExponent?]
  | cons c cs =>
    have hs := length_scanSign cs
    have hd := length_dropWhile_le isDigit (Numeral.scanSign cs).2
    simp only [Numeral.scanExponent?] at h
    split at h
    · split at h
      · simp at h
      · obtain ⟨-, rfl⟩ := Prod.mk.inj (Option.some.inj h)
        simp only [List.length_cons]
        omega
    · obtain ⟨-, rfl⟩ := Prod.mk.inj (Option.some.inj h)
      exact Nat.le_refl _

private theorem length_scanSize? {negative : Bool} {cs rest : List Char} {n : Numeral}
    (h : scanSize? negative cs = some (n, rest)) : rest.length < cs.length := by
  unfold scanSize? at h
  split at h
  · simp at h
  · simp at h
  · rename_i hne _
    have hlt := length_dropWhile_lt hne
    have hf := length_scanFraction (cs.dropWhile isDigit)
    split at h
    · simp at h
    · rename_i fraction tail _ heq
      rw [heq] at hf
      split at h
      · rename_i hx
        have := length_scanExponent? hx
        grind
      · simp at h

private theorem length_scanString? {cs rest : List Char} {done ps : List StringPiece}
    (h : scanString? cs done = some (ps, rest)) : rest.length ≤ cs.length := by
  fun_induction scanString? cs done with
  | case3 a b c d cs done n _ ih =>
    have := ih h
    simp only [List.length_cons]
    omega
  | _ => grind

namespace Token

/-- The token that starts with a character, and the rest of the text after it. -/
def scan? : Char → List Char → Option (Token × List Char)
  | '[', cs => some (.openArray, cs)
  | ']', cs => some (.closeArray, cs)
  | '\x7b', cs => some (.openObject, cs)
  | '\x7d', cs => some (.closeObject, cs)
  | ',', cs => some (.comma, cs)
  | ':', cs => some (.colon, cs)
  | 'n', 'u' :: 'l' :: 'l' :: cs => some (.null, cs)
  | 't', 'r' :: 'u' :: 'e' :: cs => some (.bool true, cs)
  | 'f', 'a' :: 'l' :: 's' :: 'e' :: cs => some (.bool false, cs)
  | '"', cs => (scanString? cs []).map fun r => (.string r.1, r.2)
  | '-', cs => (scanSize? true cs).map fun r => (.numeral r.1, r.2)
  | c, cs => if isDigit c then (scanSize? false (c :: cs)).map fun r => (.numeral r.1, r.2) else none

private theorem length_scan? {c : Char} {cs rest : List Char} {t : Token} (h : scan? c cs = some (t, rest)) :
    rest.length ≤ cs.length := by
  have hstring (r : List StringPiece × List Char) (hr : scanString? cs [] = some r) := length_scanString? hr
  have hsize (negative : Bool) (ds : List Char) (r : Numeral × List Char) (hr : scanSize? negative ds = some r) :=
    length_scanSize? hr
  unfold scan? at h
  split at h <;> grind [Option.map_eq_some_iff]

/-- The tokens of a text, behind those read before.  Blanks separate tokens and are no tokens. -/
def scanAll? : List Char → List Token → Option (List Token)
  | [], done => some done.reverse
  | c :: cs, done =>
    if isSpace c then scanAll? cs done
    else
      match h : scan? c cs with
      | some (t, rest) =>
        have := length_scan? h
        scanAll? rest (t :: done)
      | none => none
termination_by cs => cs.length

/-- The tokens of a JSON text. -/
def ofChars? (cs : List Char) : Option (List Token) := scanAll? cs []

end Token

end CellGraph.Json
