import AbstractStateMachine.Binary64.Printer
import AbstractStateMachine.Specification
import AbstractStateMachine.Text.Quoted

/-!
The text of an expression, as it is shown when an assertion fails.
-/

namespace AbstractStateMachine.Expr

/-- A name, followed by its arguments in parentheses unless there are none. -/
def application (name : String) (args : List String) : String :=
  if args.isEmpty then name else name ++ "(" ++ ", ".intercalate args ++ ")"

mutual

def text (spec : Specification) : Expr → String
  | .int value => toString value.toInt
  | .float value => value.text
  | .bool true => "true"
  | .bool false => "false"
  | .str value => Text.quoted value
  | .undefined => "undef"
  | .rule id => "@" ++ (spec.rule id).name
  | .var name => name
  | .read id args => application (spec.function id).name (textList spec args)
  | .builtin op args => op.name ++ "(" ++ ", ".intercalate (textList spec args) ++ ")"
  | .binary op left right =>
    "(" ++ text spec left ++ " " ++ op.symbol ++ " " ++ text spec right ++ ")"
  | .not operand => "not " ++ text spec operand
  | .list elements => "[" ++ ", ".intercalate (textList spec elements) ++ "]"
  | .range low high => "[" ++ text spec low ++ ".." ++ text spec high ++ "]"

def textList (spec : Specification) : List Expr → List String
  | [] => []
  | expr :: rest => text spec expr :: textList spec rest

end

end AbstractStateMachine.Expr
