import AbstractStateMachine.Binary64.Basic
import AbstractStateMachine.Operator

/-!
Expressions of a type checked specification. Functions and rules are referred to by their position
in the specification.
-/

namespace AbstractStateMachine

structure FunctionId where
  index : Nat
  deriving DecidableEq, Repr, Inhabited

structure RuleId where
  index : Nat
  deriving DecidableEq, Repr, Inhabited

inductive Expr where
  | int (value : Int64)
  | float (value : Binary64)
  | bool (value : Bool)
  | str (value : String)
  | undefined
  | rule (rule : RuleId)
  /-- A `let`, `forall` or parameter binding. -/
  | var (name : String)
  | read (function : FunctionId) (args : List Expr)
  | builtin (op : Builtin) (args : List Expr)
  | binary (op : BinaryOp) (left right : Expr)
  | not (operand : Expr)
  | list (elements : List Expr)
  /-- The integers from `low` to `high`, both included. -/
  | range (low high : Expr)
  deriving Repr, Inhabited

namespace Expr

def children : Expr → List Expr
  | read _ args | builtin _ args | list args => args
  | binary _ left right => [left, right]
  | range low high => [low, high]
  | not operand => [operand]
  | int _ | float _ | bool _ | str _ | undefined | rule _ | var _ => []

end Expr

end AbstractStateMachine
