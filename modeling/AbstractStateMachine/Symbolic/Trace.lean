import AbstractStateMachine.Binary64.Printer
import AbstractStateMachine.Value.Basic

/-!
The trace of a symbolic run: declarations of symbols and numbered assertions about them, each
written as one line for a first order prover.
-/

namespace AbstractStateMachine

/-- Operand of an assertion. -/
inductive Term where
  | int (value : Int64)
  | bool (value : Bool)
  | symbol (id : Nat)
  | undefined
  /-- The text of any other value. -/
  | text (content : String)
  deriving DecidableEq, Repr

def symbolName (id : Nat) : String := "sym" ++ toString id

namespace Term

def line : Term → String
  | int value => toString value.toInt
  | bool true => "$true"
  | bool false => "$false"
  | symbol id => symbolName id
  | undefined => "undef"
  | text content => content

/-- The term of a value whose text does not depend on a specification or on lists. -/
def ofScalar? : Value → Option Term
  | .int value => some (int value)
  | .bool value => some (bool value)
  | .symbol id => some (symbol id)
  | .verdict id _ _ _ => some (symbol id)
  | .undefined => some undefined
  | .float value => some (text value.text)
  | .str _ | .rule _ | .list _ => none

end Term

inductive DefinitionOp where
  | sum | difference | product | quotient | remainder
  deriving DecidableEq, Repr

namespace DefinitionOp

def ofBinaryOp? : BinaryOp → Option DefinitionOp
  | .add => some sum
  | .sub => some difference
  | .mul => some product
  | .div => some quotient
  | .mod => some remainder
  | _ => none

def name : DefinitionOp → String
  | sum => "$sum"
  | difference => "$difference"
  | product => "$product"
  | quotient => "$quotient_e"
  | remainder => "$remainder_e"

end DefinitionOp

inductive Timestep where
  | at (time : Nat)
  | final
  deriving DecidableEq, Repr

def Timestep.line : Timestep → String
  | .at time => toString time
  | final => "final"

inductive TraceEntry where
  | declare (symbol : Nat)
  | state (id : Nat) (function : String) (time : Timestep) (args : List Term) (value : Term)
  | condition (id : Nat) (lhs : Term) (op : Comparison) (rhs : Term)
  | definition (id : Nat) (symbol : Nat) (op : DefinitionOp) (lhs rhs : Term)
  deriving DecidableEq, Repr

namespace TraceEntry

def hypothesis (id : Nat) (formula : String) : String :=
  "fof('id" ++ toString id ++ "',hypothesis," ++ formula ++ ")."

def line : TraceEntry → String
  | declare symbol => "tff(symbolNext,type," ++ symbolName symbol ++ ": $int)."
  | state id function time args value =>
    hypothesis id
      (function ++ "(" ++ ",".intercalate (time.line :: args.map Term.line ++ [value.line]) ++ ")")
  | condition id lhs op rhs => hypothesis id (lhs.line ++ op.symbol ++ rhs.line)
  | definition id symbol op lhs rhs =>
    hypothesis id
      (symbolName symbol ++ "=" ++ op.name ++ "(" ++ lhs.line ++ "," ++ rhs.line ++ ")")

end TraceEntry

end AbstractStateMachine
