import AbstractStateMachine.OrderedMap
import AbstractStateMachine.Symbolic.Trace

/-!
Traces as SMT-LIB scripts over the integers: one declaration per symbol and per traced function,
then one assertion per assertion of the trace. A traced function takes the timestep as its first
argument.
-/

namespace AbstractStateMachine

inductive SExpr where
  | atom (text : String)
  | list (items : List SExpr)
  deriving Repr, Inhabited

namespace SExpr

mutual

def line : SExpr → String
  | .atom text => text
  | .list items => "(" ++ " ".intercalate (lines items) ++ ")"

def lines : List SExpr → List String
  | [] => []
  | item :: rest => line item :: lines rest

end

def numeral (n : Nat) : SExpr := .atom (toString n)

def intSort : SExpr := .atom "Int"

def apply (head : String) (args : List SExpr) : SExpr := .list (.atom head :: args)

def equation (lhs rhs : SExpr) : SExpr := apply "=" [lhs, rhs]

end SExpr

namespace Script

def isSymbolChar (c : Char) : Bool := c.isAlphanum || "~!@$%^&*_-+=<>.?/".toList.contains c

def isSimpleSymbol (name : String) : Bool :=
  match name.toList with
  | [] => false
  | first :: rest => !first.isDigit && (first :: rest).all isSymbolChar

/-- A name that is no simple symbol is quoted by bars, and bars in it are dropped. -/
def identifier (name : String) : String :=
  if isSimpleSymbol name then name
  else String.ofList ('|' :: name.toList.filter (· != '|') ++ ['|'])

def term : Term → SExpr
  | .int value =>
    if value < 0 then .apply "-" [.numeral value.toInt.natAbs] else .numeral value.toInt.natAbs
  | .bool true => .atom "true"
  | .bool false => .atom "false"
  | .symbol id => .atom (symbolName id)
  | .undefined => .atom "undef"
  | .text content => .atom (identifier content)

def timestep : Timestep → SExpr
  | .at time => .numeral time
  | .final => .atom "final"

def comparison (op : Comparison) (lhs rhs : SExpr) : SExpr :=
  match op with
  | .eq => .equation lhs rhs
  | .ne => .apply "not" [.equation lhs rhs]
  | .le => .apply "<=" [lhs, rhs]
  | .gt => .apply ">" [lhs, rhs]

def operator : DefinitionOp → String
  | .sum => "+"
  | .difference => "-"
  | .product => "*"
  | .quotient => "div"
  | .remainder => "mod"

def formula? : TraceEntry → Option SExpr
  | .declare _ => none
  | .state _ function time args value =>
    some (.equation (.apply (identifier function) (timestep time :: args.map term)) (term value))
  | .condition _ lhs op rhs => some (comparison op (term lhs) (term rhs))
  | .definition _ symbol op lhs rhs =>
    some (.equation (.atom (symbolName symbol)) (.apply (operator op) [term lhs, term rhs]))

def declareConst (name : String) : SExpr := .apply "declare-const" [.atom name, .intSort]

/-- Declares a function of the timestep and `arity` further arguments. -/
def declareFun (name : String) (arity : Nat) : SExpr :=
  .apply "declare-fun"
    [.atom (identifier name), .list (List.replicate (arity + 1) .intSort), .intSort]

/-- The traced functions with the number of arguments of their first report. -/
def functions (trace : List TraceEntry) : OrderedMap String Nat :=
  trace.foldl
    (fun arities entry =>
      match entry with
      | .state _ function _ args _ =>
        if arities.contains function then arities else arities.insert function args.length
      | _ => arities)
    .empty

def usesFinal (trace : List TraceEntry) : Bool :=
  trace.any fun entry =>
    match entry with
    | .state _ _ .final _ _ => true
    | _ => false

def declarations (trace : List TraceEntry) : List SExpr :=
  let symbols := trace.filterMap fun entry =>
    match entry with
    | .declare symbol => some (declareConst (symbolName symbol))
    | _ => none
  symbols ++ (if usesFinal trace then [declareConst "final"] else []) ++
    (functions trace).entries.map fun (name, arity) => declareFun name arity

def assertions (trace : List TraceEntry) : List SExpr :=
  trace.filterMap fun entry => (formula? entry).map fun formula => .apply "assert" [formula]

def ofTrace (trace : List TraceEntry) : List SExpr := declarations trace ++ assertions trace

def lines (trace : List TraceEntry) : List String := (ofTrace trace).map SExpr.line

end Script

end AbstractStateMachine
