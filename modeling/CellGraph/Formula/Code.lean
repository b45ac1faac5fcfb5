import CellGraph.Formula.Token
import CellGraph.Scalar

/-!
# Code of a formula

A formula is compiled to postfix code for a machine with a stack of doubles.  `execute` runs code on the values of the
arguments: an argument that is missing or has no number stops the run, and so does an instruction that takes more from
the stack than is there.  In the end one double has to be left.
-/

namespace CellGraph.Formula

inductive Instr where
  | push (x : Float)
  /-- Puts the argument at an index on the stack, counted from zero. -/
  | argument (index : Nat)
  | negate
  /-- Replaces the two doubles on top by the result of an operator. -/
  | binary (o : Operator)
deriving DecidableEq

def Instr.text : Instr → String
  | .push x => "Push(" ++ constantText x ++ ")"
  | .argument i => "Arg(" ++ toString i ++ ")"
  | .negate => "Neg"
  | .binary o => "Binary(" ++ o.name ++ ")"

/-- Why a run of code has no value. -/
inductive EvalError where
  /-- An argument has no value; arguments are counted from one. -/
  | missingArgument (position : Nat)
  | notNumeric (position : Nat) (value : Value)
  | nonFinite
  /-- The code does not leave exactly one double. -/
  | unbalanced

/-- The double of the argument at an index. -/
def argument (args : List (Option Value)) (index : Nat) : Except EvalError Float :=
  match args[index]? with
  | some (some v) =>
    match v.toFloat? with
    | some x => .ok x
    | none => .error (.notNumeric (index + 1) v)
  | _ => .error (.missingArgument (index + 1))

/-- The stack after an instruction, on the values of the arguments.  The first element of a stack is on top. -/
def Instr.step (args : List (Option Value)) : Instr → List Float → Except EvalError (List Float)
  | .push x, stack => .ok (x :: stack)
  | .argument i, stack =>
    match Formula.argument args i with
    | .ok x => .ok (x :: stack)
    | .error e => .error e
  | .negate, x :: stack => .ok (-x :: stack)
  | .binary o, r :: l :: stack => .ok (o.apply l r :: stack)
  | _, _ => .error .unbalanced

def Instr.run (args : List (Option Value)) : List Instr → List Float → Except EvalError (List Float)
  | [], stack => .ok stack
  | i :: code, stack =>
    match i.step args stack with
    | .ok stack => run args code stack
    | .error e => .error e

/-- The result of code on the values of the arguments: what it leaves on an empty stack, which has to be one double. -/
def execute (code : List Instr) (args : List (Option Value)) : Except EvalError Float :=
  match Instr.run args code [] with
  | .ok [x] => .ok x
  | .ok _ => .error .unbalanced
  | .error e => .error e

end CellGraph.Formula
