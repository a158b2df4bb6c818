import AbstractStateMachine.Expr.Basic

/-!
Values of a running machine. Scalars are held directly, lists by a handle into a list heap. An
unknown of symbolic execution is a numbered symbol; one that stands for an undecided comparison
carries it.
-/

namespace AbstractStateMachine

/-- The place of a list in a list heap. -/
structure Handle where
  index : Nat
  deriving DecidableEq, Repr, Inhabited

/-- The comparisons that conditions on symbols are expressed in. -/
inductive Comparison where
  | eq | ne | le | gt
  deriving DecidableEq, Repr

namespace Comparison

def all : List Comparison := [eq, ne, le, gt]

def symbol : Comparison → String
  | eq => "="
  | ne => "!="
  | le => "<="
  | gt => ">"

def ofSymbol? (text : String) : Option Comparison := all.find? (·.symbol == text)

def negate : Comparison → Comparison
  | eq => ne
  | ne => eq
  | le => gt
  | gt => le

@[simp]
theorem negate_negate (op : Comparison) : op.negate.negate = op := by cases op <;> rfl

end Comparison

inductive Value where
  | int (value : Int64)
  | float (value : Binary64)
  | bool (value : Bool)
  | str (value : String)
  | undefined
  | rule (rule : RuleId)
  | symbol (id : Nat)
  /-- A symbol for the truth of `lhs op rhs`. -/
  | verdict (id : Nat) (lhs : Value) (op : Comparison) (rhs : Value)
  | list (handle : Handle)
  deriving DecidableEq, Repr

instance : Inhabited Value := ⟨.undefined⟩

structure Condition where
  lhs : Value
  op : Comparison
  rhs : Value
  deriving DecidableEq, Repr

inductive Kind where
  | int | float | bool | str | undefined | rule | symbol | list
  deriving DecidableEq, Repr

def Kind.name : Kind → String
  | int => "Int"
  | float => "Float"
  | bool => "Boolean"
  | str => "String"
  | undefined => "Undef"
  | rule => "RuleRef"
  | symbol => "Symbol"
  | list => "List"

namespace Value

def kind : Value → Kind
  | int _ => .int
  | float _ => .float
  | bool _ => .bool
  | str _ => .str
  | undefined => .undefined
  | rule _ => .rule
  | symbol _ => .symbol
  | verdict _ _ _ _ => .symbol
  | list _ => .list

def isUndefined (value : Value) : Bool := value.kind == .undefined

def isSymbolic (value : Value) : Bool := value.kind == .symbol

def int? : Value → Option Int64
  | int value => some value
  | _ => none

def float? : Value → Option Binary64
  | float value => some value
  | _ => none

def bool? : Value → Option Bool
  | bool value => some value
  | _ => none

def str? : Value → Option String
  | str value => some value
  | _ => none

def rule? : Value → Option RuleId
  | rule id => some id
  | _ => none

def list? : Value → Option Handle
  | list handle => some handle
  | _ => none

def symbolId? : Value → Option Nat
  | symbol id => some id
  | verdict id _ _ _ => some id
  | _ => none

end Value

end AbstractStateMachine
