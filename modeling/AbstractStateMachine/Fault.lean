import AbstractStateMachine.Operator
import AbstractStateMachine.Source.Span
import AbstractStateMachine.Value.Basic

/-!
What can go wrong while a machine runs. A fault is a cause together with the statement it arose in
and, where two statements disagree, the earlier one.
-/

namespace AbstractStateMachine

inductive FaultKind where
  | conflict | invalidCall | assertionFailure | unsupportedOperation | abort
  deriving DecidableEq, Repr

def FaultKind.label : FaultKind → String
  | conflict => "conflicting updates"
  | invalidCall => "invalid call"
  | assertionFailure => "assertion failed"
  | unsupportedOperation => "unsupported operation"
  | abort => "aborted"

/-- Operands that an operation is not defined for. -/
inductive OperandError where
  | binary (op : BinaryOp) (left right : Kind)
  | negation (operand : Kind)
  | builtinArity (op : Builtin) (given : Nat)
  | builtinPair (op : Builtin) (left right : Kind)
  | builtinOperand (op : Builtin) (operand : Kind)
  deriving DecidableEq, Repr

inductive Cause where
  /-- Writes of one parallel block that disagree. -/
  | disagreement
  /-- A write to a location whose key another pending location occupies. -/
  | keyCollision
  | functionArity (name : String) (expected given : Nat)
  | ruleArity (name : String) (expected given : Nat)
  | callOfUndefined
  | callOf (kind : Kind)
  | programHolds (kind : Kind)
  | assertion (condition : String)
  | aborted (message : String)
  | operands (error : OperandError)
  | rangeBounds (low high : Kind)
  | branchCondition (kind : Kind)
  | domain (kind : Kind)
  | pushInto (kind : Kind)
  | popFrom (kind : Kind)
  deriving DecidableEq, Repr

def inBackticks (text : String) : String := "`" ++ text ++ "`"

def arityText (what : String) (expected given : Nat) : String :=
  what ++ " expects " ++ toString expected ++ " arguments, got " ++ toString given

def OperandError.detail : OperandError → String
  | binary op left right =>
    inBackticks op.symbol ++ " is not defined for " ++ left.name ++ " and " ++ right.name
  | negation operand => "`not` is not defined for " ++ operand.name
  | builtinArity op given => arityText (inBackticks op.name) op.arity given
  | builtinPair op left right =>
    inBackticks op.name ++ " is not defined for " ++ left.name ++ " and " ++ right.name
  | builtinOperand op operand => inBackticks op.name ++ " is not defined for " ++ operand.name

namespace Cause

def kind : Cause → FaultKind
  | disagreement | keyCollision => .conflict
  | functionArity _ _ _ | ruleArity _ _ _ | callOfUndefined | callOf _ | programHolds _ =>
    .invalidCall
  | assertion _ => .assertionFailure
  | aborted _ => .abort
  | operands _ | rangeBounds _ _ | branchCondition _ | domain _ | pushInto _ | popFrom _ =>
    .unsupportedOperation

def detail : Cause → String
  | disagreement => "conflicting updates in parallel block"
  | keyCollision => "updates collide on their storage key"
  | functionArity name expected given => arityText (inBackticks name) expected given
  | ruleArity name expected given => arityText ("rule " ++ inBackticks name) expected given
  | callOfUndefined => "call of an undef rule reference"
  | callOf kind => "cannot call a " ++ kind.name
  | programHolds kind => "`program` holds a " ++ kind.name ++ " instead of a rule"
  | assertion condition => inBackticks condition ++ " does not hold"
  | aborted message => message
  | operands error => error.detail
  | rangeBounds low high => "range bounds need to be Int, got " ++ low.name ++ " and " ++ high.name
  | branchCondition kind => "expected a Boolean condition, got " ++ kind.name
  | domain kind => "forall needs a List to iterate over, got " ++ kind.name
  | pushInto kind => "cannot push into a " ++ kind.name
  | popFrom kind => "cannot pop from a " ++ kind.name

end Cause

structure Fault where
  cause : Cause
  span : Span := {}
  /-- The earlier one of two statements that disagree. -/
  other : Option Span := none
  deriving DecidableEq, Repr

/-- What is reported to the user about a fault. -/
structure Diagnostic where
  kind : FaultKind
  span : Span := {}
  other : Option Span := none
  detail : String
  deriving DecidableEq, Repr

def Diagnostic.message (diagnostic : Diagnostic) : String :=
  diagnostic.kind.label ++ ": " ++ diagnostic.detail

def Fault.diagnostic (fault : Fault) : Diagnostic :=
  { kind := fault.cause.kind
    span := fault.span
    other := fault.other
    detail := fault.cause.detail }

end AbstractStateMachine
