import AbstractStateMachine.Expr.Printer
import AbstractStateMachine.ListHeap.Basic

/-!
The text of a value, as it is printed and as it stands in update dumps.
-/

namespace AbstractStateMachine

namespace ListHeap

/-- The text of a value with lists nested at most `depth` deep. -/
def textWithin (heap : ListHeap) (spec : Specification) : Nat → Value → String
  | _, .int value => toString value.toInt
  | _, .float value => value.text
  | _, .bool true => "true"
  | _, .bool false => "false"
  | _, .str value => value
  | _, .undefined => "undef"
  | _, .rule id => "@" ++ (spec.rule id).name
  | _, .symbol id => "sym" ++ toString id
  | _, .verdict id _ _ _ => "sym" ++ toString id
  | 0, .list _ => "[]"
  | depth + 1, .list handle =>
    "[" ++ ", ".intercalate ((heap.toList handle).map (heap.textWithin spec depth)) ++ "]"

/-- Lists cannot be nested deeper than the heap has nodes. -/
def text (heap : ListHeap) (spec : Specification) (value : Value) : String :=
  heap.textWithin spec (heap.slots.size + 1) value

def argsText (heap : ListHeap) (spec : Specification) (args : List Value) : String :=
  ", ".intercalate (args.map (heap.text spec))

/-- The location `name(args)`, written without parentheses if there are no arguments. -/
def locationText (heap : ListHeap) (spec : Specification) (name : String) (args : List Value) :
    String :=
  Expr.application name (args.map (heap.text spec))

end ListHeap

end AbstractStateMachine
