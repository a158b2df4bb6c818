/-!
The operators and builtin functions of expressions, with their names.
-/

namespace AbstractStateMachine

inductive BinaryOp where
  | add | sub | mul | div | mod
  | eq | ne | lt | gt | le | ge
  | and | or | xor
  deriving DecidableEq, Repr

namespace BinaryOp

def all : List BinaryOp :=
  [add, sub, mul, div, mod, eq, ne, lt, gt, le, ge, and, or, xor]

def symbol : BinaryOp → String
  | add => "+"
  | sub => "-"
  | mul => "*"
  | div => "/"
  | mod => "%"
  | eq => "="
  | ne => "!="
  | lt => "<"
  | gt => ">"
  | le => "<="
  | ge => ">="
  | and => "and"
  | or => "or"
  | xor => "xor"

def ofSymbol? (text : String) : Option BinaryOp := all.find? (·.symbol == text)

def isArithmetic : BinaryOp → Bool
  | add | sub | mul | div | mod => true
  | _ => false

def isOrdering : BinaryOp → Bool
  | lt | gt | le | ge => true
  | _ => false

def isComparison (op : BinaryOp) : Bool := op == eq || op == ne || op.isOrdering

end BinaryOp

inductive Builtin where
  | pow | hex | nth | cons | app | tail | len | peek
  | boolToInt | intToBool | asInt | asFloat | isSymbolic
  deriving DecidableEq, Repr

namespace Builtin

def all : List Builtin :=
  [pow, hex, nth, cons, app, tail, len, peek, boolToInt, intToBool, asInt, asFloat, isSymbolic]

def name : Builtin → String
  | pow => "pow"
  | hex => "hex"
  | nth => "nth"
  | cons => "cons"
  | app => "app"
  | tail => "tail"
  | len => "len"
  | peek => "peek"
  | boolToInt => "Boolean2Int"
  | intToBool => "Int2Boolean"
  | asInt => "asInt"
  | asFloat => "asFloat"
  | isSymbolic => "symbolic"

def ofName? (text : String) : Option Builtin := all.find? (·.name == text)

def arity : Builtin → Nat
  | pow | nth | cons | app => 2
  | _ => 1

end Builtin

end AbstractStateMachine
