import CellGraph.Formula.Operator
import CellGraph.Numeric.Layout
import CellGraph.Numeric.Numeral
import CellGraph.Text.Blank

/-!
# Tokens of a formula

A formula is cut into numbers, arguments `$k`, operators and parentheses.  Only the characters that these are made of
count (`sanitize`): letters, commas and everything else are dropped beforehand.  Doubled signs and the openings of
comments are refused, since a reader could take them for something else.
-/

namespace CellGraph.Formula

inductive Token where
  | number (x : Float)
  /-- The argument at an index, counted from zero. -/
  | argument (index : Nat)
  | operator (o : Operator)
  | openParen
  | closeParen
deriving DecidableEq

/-- Why a text has no token at some place. -/
inductive TokenFailure where
  /-- A run of digits and points that is no number. -/
  | malformedNumber (text : String)
  | doubledSign (sign : Char)
  /-- A slash followed by a slash or an asterisk. -/
  | comment
  | unexpectedCharacter (c : Char)
deriving DecidableEq

/-- Doubles inside the texts of tokens and instructions: zero and sizes from `0.0001` up to but not including `1e16`
are written out by position, an integer keeps `.0`, and a tie goes up. -/
def constantLayout : Layout where
  positional k := decide (-4 ≤ k ∧ k ≤ 15)
  pointZero := true
  plusSign := false
  tie := .up

/-- The text of a double in that form. -/
def constantText (x : Float) : String := .ofList (constantLayout.write x)

def Token.text : Token → String
  | .number x => "Num(" ++ constantText x ++ ")"
  | .argument i => "Arg(" ++ toString i ++ ")"
  | .operator o => "Op(" ++ o.name ++ ")"
  | .openParen => "LParen"
  | .closeParen => "RParen"

/-! ### Characters -/

/-- The characters that count in a formula. -/
def isFormulaChar (c : Char) : Bool := isDigit c || isBlank c || c ∈ ['.', '+', '-', '*', '/', '%', '(', ')', '$']

/-- A formula without the characters that do not count. -/
def sanitize (cs : List Char) : List Char := cs.filter isFormulaChar

def isNumberChar (c : Char) : Bool := isDigit c || c == '.'

/-! ### References -/

/-- Whether the digits after a dollar sign name one of the first `arity` arguments, counted from one. -/
def resolves (arity : Nat) (digits : List Char) : Bool :=
  !digits.isEmpty && decide (1 ≤ digitsValue digits ∧ digitsValue digits ≤ arity)

/-- The digits of the first reference that does not name an argument. -/
def firstUnresolved? (arity : Nat) : List Char → Option (List Char)
  | [] => none
  | c :: cs =>
    if c == '$' && !resolves arity (cs.takeWhile isDigit) then some (cs.takeWhile isDigit)
    else firstUnresolved? arity cs

/-! ### Cutting a text into tokens -/

namespace Token

/-- The token that starts with a character, and the rest of the text after it. -/
def scan (c : Char) (cs : List Char) : Except TokenFailure (Token × List Char) :=
  if isNumberChar c then
    let text := c :: cs.takeWhile isNumberChar
    match Numeral.ofText? false text with
    | some n => .ok (.number n.toFloat, cs.dropWhile isNumberChar)
    | none => .error (.malformedNumber (.ofList text))
  else
    match c with
    | '$' => .ok (.argument (digitsValue (cs.takeWhile isDigit) - 1), cs.dropWhile isDigit)
    | '+' => if cs.head? == some '+' then .error (.doubledSign '+') else .ok (.operator .add, cs)
    | '-' => if cs.head? == some '-' then .error (.doubledSign '-') else .ok (.operator .sub, cs)
    | '*' => if cs.head? == some '*' then .ok (.operator .pow, cs.tail) else .ok (.operator .mul, cs)
    | '/' => if cs.head? == some '/' || cs.head? == some '*' then .error .comment else .ok (.operator .div, cs)
    | '%' => .ok (.operator .rem, cs)
    | '(' => .ok (.openParen, cs)
    | ')' => .ok (.closeParen, cs)
    | c => .error (.unexpectedCharacter c)

/-- A token takes at least its first character. -/
theorem length_scan {c : Char} {cs rest : List Char} {t : Token} (h : scan c cs = .ok (t, rest)) :
    rest.length ≤ cs.length := by
  have hnumber := (List.dropWhile_suffix isNumberChar (l := cs)).length_le
  have hdigit := (List.dropWhile_suffix isDigit (l := cs)).length_le
  unfold scan at h
  grind

/-- The tokens of a text, behind those read before.  Blanks separate tokens and are no tokens. -/
def scanAll : List Char → List Token → Except TokenFailure (List Token)
  | [], done => .ok done.reverse
  | c :: cs, done =>
    if isBlank c then scanAll cs done
    else
      match h : scan c cs with
      | .ok (t, rest) =>
        have := length_scan h
        scanAll rest (t :: done)
      | .error e => .error e
termination_by cs => cs.length

def ofChars (cs : List Char) : Except TokenFailure (List Token) := scanAll cs []

end Token

end CellGraph.Formula
