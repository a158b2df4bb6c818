import AbstractStateMachine.Expr.Basic
import AbstractStateMachine.Source.Span

/-!
Statements of a type checked specification, each with the place in the source it stems from.
-/

namespace AbstractStateMachine

mutual

structure Stmt where
  span : Span := {}
  action : Action

inductive Action where
  | skip
  | update (function : FunctionId) (args : List Expr) (value : Expr)
  | par (body : List Stmt)
  | seq (body : List Stmt)
  | ifThen (cond : Expr) (yes : Stmt) (no : Option Stmt)
  | cases (scrutinee : Expr) (arms : List (Expr × Stmt)) (default : Option Stmt)
  | letIn (name : String) (value : Expr) (body : Stmt)
  | forAll (name : String) (domain : Expr) (body : Stmt)
  /-- Repeats the body until a round records no update. -/
  | iterate (body : Stmt)
  | call (rule : RuleId) (args : List Expr)
  | callValue (target : Expr) (args : List Expr)
  | print (values : List Expr)
  | assert (cond : Expr)
  | abort (message : Option Expr)
  | push (value : Expr) (target : FunctionId) (args : List Expr)
  | pop (source : FunctionId) (args : List Expr) (target : FunctionId)

end

end AbstractStateMachine
