import CellGraph.Formula.Compile
import CellGraph.Json.Printer

/-!
# Faults and their messages

A cell has a fault when it has no program or when its program stopped.  The wording of every cause is here.
-/

namespace CellGraph

namespace Formula

def TokenFailure.message : TokenFailure → String
  | .malformedNumber text => "malformed number '" ++ text ++ "'"
  | .doubledSign c => "'" ++ String.ofList [c, c] ++ "' is not an arithmetic operator"
  | .comment => "comments are not allowed in formulas"
  | .unexpectedCharacter c => "unexpected character '" ++ String.ofList [c] ++ "'"

def BuildFailure.message : BuildFailure → String
  | .token f => f.message
  | .empty => "empty expression"
  | .unexpected t => "unexpected " ++ t.text
  | .afterOperand t => "unexpected " ++ t.text ++ " after complete expression"
  | .signedBase => "unary operand of '**' must be parenthesised"
  | .unbalancedParens => "unbalanced parentheses"
  | .unfinished => "unexpected end of expression"
  | .stated reason => reason

def CompileError.message : CompileError → String
  | .notInitialized => "Cell is not initialized: it has neither a formula nor an enumeration"
  | .unresolvedReference reference =>
    "Formula references unresolved: '" ++ reference ++ "' does not name a connected input"
  | .build f => "Could not build expression: " ++ f.message

def EvalError.message : EvalError → String
  | .missingArgument position => "Argument $" ++ toString position ++ " has no value"
  | .notNumeric position value => "Argument $" ++ toString position ++ " is not numeric: " ++ value.compact
  | .nonFinite => "Arithmetic produced a non-finite result"
  | .unbalanced => "Compiled code left the value stack unbalanced"

end Formula

inductive Fault where
  | compile (e : Formula.CompileError)
  | eval (e : Formula.EvalError)

def Fault.message : Fault → String
  | .compile e => e.message
  | .eval e => e.message

end CellGraph
