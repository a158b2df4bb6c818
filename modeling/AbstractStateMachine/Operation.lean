import AbstractStateMachine.Binary64.Reader
import AbstractStateMachine.Fault
import AbstractStateMachine.Integer
import AbstractStateMachine.Text.Blank
import AbstractStateMachine.Value.Equality

/-!
What operators and builtins compute on known values. `undef` stands for a missing value: arithmetic
and orderings pass it on, and the logical operators treat it as an unknown truth value.
-/

namespace AbstractStateMachine.Operation

abbrev Outcome := Except OperandError Value

/-- Sums, differences and products wrap around; division by zero has no value. -/
def integerArithmetic (op : BinaryOp) (x y : Int64) : Option Value :=
  match op with
  | .add => some (.int (x + y))
  | .sub => some (.int (x - y))
  | .mul => some (.int (x * y))
  | .div => some (if y = 0 then .undefined else .int (x / y))
  | .mod => some (if y = 0 then .undefined else .int (x % y))
  | _ => none

def floatArithmetic (op : BinaryOp) (x y : Binary64) : Option Value :=
  match op with
  | .add => some (.float (x.add y))
  | .sub => some (.float (x.sub y))
  | .mul => some (.float (x.mul y))
  | .div => some (.float (x.div y))
  | .mod => some (.float (x.remainder y))
  | _ => none

def arithmetic (op : BinaryOp) (left right : Value) : Outcome :=
  let result :=
    match left, right with
    | .int x, .int y => integerArithmetic op x y
    | .float x, .float y => floatArithmetic op x y
    | .str x, .str y => if op = .add then some (.str (x ++ y)) else none
    | _, _ => none
  match result with
  | some value => .ok value
  | none => .error (.binary op left.kind right.kind)

/-- Numbers by size, texts by code points. An unordered pair makes every ordering false. -/
def order? : Value → Value → Option (Option Ordering)
  | .int x, .int y => some (some (compare x y))
  | .float x, .float y => some (x.compare? y)
  | .str x, .str y => some (some (compare x y))
  | _, _ => none

def ordering (op : BinaryOp) (left right : Value) : Outcome :=
  match order? left right with
  | none => .error (.binary op left.kind right.kind)
  | some none => .ok (.bool false)
  | some (some result) =>
    match op with
    | .lt => .ok (.bool result.isLT)
    | .gt => .ok (.bool result.isGT)
    | .le => .ok (.bool result.isLE)
    | .ge => .ok (.bool result.isGE)
    | _ => .error (.binary op left.kind right.kind)

/-- A truth value that may be unknown; `none` for a value that is none. -/
def truth? : Value → Option (Option Bool)
  | .bool b => some (some b)
  | .undefined => some none
  | _ => none

def kleeneAnd : Option Bool → Option Bool → Option Bool
  | some false, _ => some false
  | _, some false => some false
  | some true, some true => some true
  | _, _ => none

def kleeneOr : Option Bool → Option Bool → Option Bool
  | some true, _ => some true
  | _, some true => some true
  | some false, some false => some false
  | _, _ => none

def kleeneXor : Option Bool → Option Bool → Option Bool
  | some x, some y => some (x != y)
  | _, _ => none

def ofTruth : Option Bool → Value
  | some b => .bool b
  | none => .undefined

def logic (op : BinaryOp) (left right : Value) : Outcome :=
  match truth? left, truth? right with
  | some x, some y =>
    match op with
    | .and => .ok (ofTruth (kleeneAnd x y))
    | .or => .ok (ofTruth (kleeneOr x y))
    | .xor => .ok (ofTruth (kleeneXor x y))
    | _ => .error (.binary op left.kind right.kind)
  | _, _ => .error (.binary op left.kind right.kind)

def binary (heap : ListHeap) (op : BinaryOp) (left right : Value) : Outcome :=
  match op with
  | .eq => .ok (.bool (heap.equal left right))
  | .ne => .ok (.bool (!heap.equal left right))
  | .and | .or | .xor => logic op left right
  | .add | .sub | .mul | .div | .mod =>
    if left.isUndefined || right.isUndefined then .ok .undefined else arithmetic op left right
  | .lt | .gt | .le | .ge =>
    if left.isUndefined || right.isUndefined then .ok .undefined else ordering op left right

def not : Value → Outcome
  | .bool b => .ok (.bool (!b))
  | .undefined => .ok .undefined
  | other => .error (.negation other.kind)

def optionalInt : Option Int64 → Value
  | some value => .int value
  | none => .undefined

def optionalFloat : Option Binary64 → Value
  | some value => .float value
  | none => .undefined

abbrev HeapOutcome := Except OperandError (Value × ListHeap)

def listValue (result : Handle × ListHeap) : Value × ListHeap := (.list result.1, result.2)

def builtinPair (heap : ListHeap) (lease : Lease) (op : Builtin) (left right : Value) :
    HeapOutcome :=
  match op, left, right with
  | .pow, .int base, .int power => .ok (optionalInt (Integer.pow? base power), heap)
  | .pow, .float base, .float power => .ok (.float (base.pow power), heap)
  | .pow, .undefined, _ => .ok (.undefined, heap)
  | .pow, _, .undefined => .ok (.undefined, heap)
  | .nth, .list list, .int position => .ok (heap.nth list position, heap)
  | .nth, .undefined, _ => .ok (.undefined, heap)
  | .nth, _, .undefined => .ok (.undefined, heap)
  | .cons, value, .list list => .ok (listValue (heap.cons value list))
  | .cons, _, .undefined => .ok (.undefined, heap)
  | .app, .list list, value => .ok (listValue (heap.append lease list value))
  | .app, .undefined, _ => .ok (.undefined, heap)
  | _, _, _ => .error (.builtinPair op left.kind right.kind)

/-- Builtins of one argument that do not concern lists. -/
def conversion (op : Builtin) : Value → Option Value
  | .int value =>
    match op with
    | .hex => some (.str (Integer.hex value))
    | .intToBool => some (.bool (value != 0))
    | .asInt => some (.int value)
    | .asFloat => some (.float (.ofInt64 value))
    | _ => none
  | .float value =>
    match op with
    | .asInt => some (.int value.toInt64)
    | .asFloat => some (.float value)
    | _ => none
  | .bool value =>
    match op with
    | .boolToInt | .asInt => some (.int (if value then 1 else 0))
    | _ => none
  | .str value =>
    match op with
    | .asInt => some (optionalInt (Integer.ofText? (Text.trim value.toList)))
    | .asFloat => some (optionalFloat (Binary64.ofText? (Text.trim value.toList)))
    | _ => none
  | _ => none

def builtinSingle (heap : ListHeap) (op : Builtin) (operand : Value) : HeapOutcome :=
  if op = .isSymbolic then .ok (.bool operand.isSymbolic, heap)
  else if operand.isUndefined then .ok (.undefined, heap)
  else
    match op, operand with
    | .tail, .list list => .ok (listValue (heap.tail list))
    | .len, .list list => .ok (.int (Int64.ofNat (heap.length list)), heap)
    | .peek, .list list => .ok (heap.peek list, heap)
    | _, _ =>
      match conversion op operand with
      | some value => .ok (value, heap)
      | none => .error (.builtinOperand op operand.kind)

def builtin (heap : ListHeap) (lease : Lease) (op : Builtin) (args : List Value) : HeapOutcome :=
  if args.length = op.arity then
    match args with
    | [left, right] => builtinPair heap lease op left right
    | [operand] => builtinSingle heap op operand
    | _ => .error (.builtinArity op args.length)
  else .error (.builtinArity op args.length)

end AbstractStateMachine.Operation
