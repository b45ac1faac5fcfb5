import CellGraph.Formula.Code

/-!
# Compiling a formula

Tokens are turned into postfix code over a stack of operators that wait for their right operand (`Yard`).  A sign in
front of an operand binds tighter than every operator, and a signed operand cannot be the base of a power without
parentheses.  `compile` does all the steps: it drops the characters that do not count, refuses the first reference
that names no argument, cuts the text into tokens and compiles them.
-/

namespace CellGraph.Formula

inductive BuildFailure where
  | token (f : TokenFailure)
  | empty
  /-- An operand has to come, and this token cannot start one. -/
  | unexpected (t : Token)
  /-- An operand is complete, and this token cannot follow it. -/
  | afterOperand (t : Token)
  /-- A signed operand is the base of a power. -/
  | signedBase
  | unbalancedParens
  /-- The last operand is missing. -/
  | unfinished
  | stated (reason : String)
deriving DecidableEq

inductive CompileError where
  | notInitialized
  | unresolvedReference (reference : String)
  | build (f : BuildFailure)
deriving DecidableEq

/-! ### The stack of waiting operators -/

/-- What waits for its right operand. -/
inductive Pending where
  | paren
  /-- A sign in front of an operand. -/
  | sign (negative : Bool)
  /-- An operator whose left operand is complete. -/
  | operator (o : Operator)
deriving DecidableEq

/-- The code with what waited on top of it carried out.  A plus sign does nothing. -/
def Pending.emit (code : List Instr) : Pending → List Instr
  | .paren => code
  | .sign true => .negate :: code
  | .sign false => code
  | .operator o => .binary o :: code

/-- A formula that is compiled up to some token. -/
structure Yard where
  /-- The code, the last instruction first. -/
  code : List Instr
  /-- What waits for its right operand, the last one first. -/
  pending : List Pending
  /-- Whether the text so far ends with an operand. -/
  hasOperand : Bool

namespace Yard

def empty : Yard := ⟨[], [], false⟩

/-- Carries out what binds before an operator that comes next. -/
def reduce (o : Operator) : List Pending → List Instr → List Pending × List Instr
  | .sign negative :: ps, code => reduce o ps ((Pending.sign negative).emit code)
  | .operator p :: ps, code =>
    if p.bindsBefore o then reduce o ps ((Pending.operator p).emit code) else (.operator p :: ps, code)
  | ps, code => (ps, code)

/-- Carries out what waits inside the last open parenthesis. -/
def close : List Pending → List Instr → Option (List Pending × List Instr)
  | [], _ => none
  | .paren :: ps, code => some (ps, code)
  | p :: ps, code => close ps (p.emit code)

/-- Carries out all that waits. -/
def drain : List Pending → List Instr → Option (List Instr)
  | [], code => some code
  | .paren :: _, _ => none
  | p :: ps, code => drain ps (p.emit code)

/-- Reads an operator after an operand. -/
def operator (y : Yard) (o : Operator) : Except BuildFailure Yard :=
  match o, y.pending with
  | .pow, .sign _ :: _ => .error .signedBase
  | _, _ =>
    let (pending, code) := reduce o y.pending y.code
    .ok ⟨code, .operator o :: pending, false⟩

def push (y : Yard) (t : Token) : Except BuildFailure Yard :=
  if y.hasOperand then
    match t with
    | .operator o => y.operator o
    | .closeParen =>
      match close y.pending y.code with
      | some (pending, code) => .ok ⟨code, pending, true⟩
      | none => .error .unbalancedParens
    | t => .error (.afterOperand t)
  else
    match t with
    | .number x => .ok ⟨.push x :: y.code, y.pending, true⟩
    | .argument i => .ok ⟨.argument i :: y.code, y.pending, true⟩
    | .openParen => .ok ⟨y.code, .paren :: y.pending, false⟩
    | .operator .add => .ok ⟨y.code, .sign false :: y.pending, false⟩
    | .operator .sub => .ok ⟨y.code, .sign true :: y.pending, false⟩
    | t => .error (.unexpected t)

def pushAll : Yard → List Token → Except BuildFailure Yard
  | y, [] => .ok y
  | y, t :: ts =>
    match y.push t with
    | .ok y => pushAll y ts
    | .error e => .error e

/-- The code of a formula that ends here. -/
def finish (y : Yard) : Except BuildFailure (List Instr) :=
  if y.hasOperand then
    match drain y.pending y.code with
    | some code => .ok code.reverse
    | none => .error .unbalancedParens
  else .error .unfinished

end Yard

def compileTokens : List Token → Except BuildFailure (List Instr)
  | [] => .error .empty
  | ts =>
    match Yard.empty.pushAll ts with
    | .ok y => y.finish
    | .error e => .error e

/-- The code of a formula with a number of arguments.  A reference that names none of them is reported before any
other failure. -/
def compile (formula : String) (arity : Nat) : Except CompileError (List Instr) :=
  let cs := sanitize formula.toList
  match firstUnresolved? arity cs with
  | some digits => .error (.unresolvedReference (.ofList ('$' :: digits)))
  | none =>
    match Token.ofChars cs with
    | .error f => .error (.build (.token f))
    | .ok ts =>
      match compileTokens ts with
      | .error f => .error (.build f)
      | .ok code => .ok code

end CellGraph.Formula
