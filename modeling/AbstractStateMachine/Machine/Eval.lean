import AbstractStateMachine.Expr.Traversal
import AbstractStateMachine.Machine.Basic
import AbstractStateMachine.Operation

/-!
Evaluation of expressions. All children of a node are evaluated, from left to right, even if one of
them fails; the fault of the leftmost is the result. Fuel bounds the nesting of derived functions.
-/

namespace AbstractStateMachine

namespace Run

def freshSymbol : Run Value := do
  let id ← onRecorder Recorder.fresh
  pure (.symbol id)

def freshVerdict (cond : Condition) : Run Value := onRecorder fun recorder =>
  recorder.freshVerdict cond

def operand (outcome : Operation.Outcome) : Run Value :=
  match outcome with
  | .ok value => pure value
  | .error error => raise (.operands error)

/-- The result of an operator on operands of which one is a symbol: `undef` if the other operand
leaves no value, a symbol defined by the operation, or a comparison that the path may decide. -/
def symbolicBinary (setting : Setting) (op : BinaryOp) (left right : Value) : Run Value := do
  if (op.isArithmetic || op.isOrdering) && (left.isUndefined || right.isUndefined) then
    return .undefined
  let machine ← get
  match DefinitionOp.ofBinaryOp? op with
  | some definition =>
    let id ← onRecorder fun recorder =>
      recorder.define definition (machine.term setting left) (machine.term setting right)
    pure (.symbol id)
  | none =>
    match Condition.ofComparison? op left right with
    | some cond =>
      match machine.recorder.check cond with
      | .holds => pure (.bool true)
      | .fails => pure (.bool false)
      | .unknown => freshVerdict cond
    | none => freshSymbol

def binary (setting : Setting) (op : BinaryOp) (left right : Value) : Run Value := do
  if left.isSymbolic || right.isSymbolic then symbolicBinary setting op left right
  else
    let machine ← get
    operand (Operation.binary machine.heap op left right)

def negation (value : Value) : Run Value :=
  match Condition.ofNegation? value with
  | some cond => freshVerdict cond
  | none => operand (Operation.not value)

/-- Nothing is known about a builtin that is not defined for a symbol, so its result is a new one.
-/
def builtin (setting : Setting) (op : Builtin) (args : List Value) : Run Value := do
  let machine ← get
  match Operation.builtin machine.heap machine.lease op args with
  | .ok (value, heap) =>
    set { machine with heap }
    pure value
  | .error error =>
    if setting.symbolic && args.any Value.isSymbolic then freshSymbol
    else raise (.operands error)

def integersBetween (low high : Int64) : List Value :=
  (List.range (high.toInt - low.toInt + 1).toNat).map fun offset =>
    .int (low + Int64.ofNat offset)

def range (low high : Value) : Run Value :=
  match low, high with
  | .int low, .int high => do
    let handle ← onHeap fun heap => heap.ofList (integersBetween low high)
    pure (.list handle)
  | low, high =>
    if low.isUndefined || high.isUndefined then pure .undefined
    else raise (.rangeBounds low.kind high.kind)

/-- Reads a stored location, which takes pending writes of enclosing sequential blocks into account.
In symbolic mode a location without a value of a symbolic function becomes a symbol. -/
def readStored (setting : Setting) (function : FunctionId) (args : List Value) : Run Value := do
  let machine ← get
  let decl := setting.spec.function function
  let key := machine.heap.argKey setting.digest args
  match machine.pending.lookup machine.heap function key args with
  | some value => pure value
  | none =>
    match machine.state.get? machine.heap function key args with
    | some value => pure value
    | none =>
      if setting.symbolic && decl.symbolic then
        let value ← freshSymbol
        let machine ← get
        let location : TrackedLocation :=
          { function := decl.name
            args := args.map (machine.term setting)
            value := machine.term setting value }
        set
          { machine with
            recorder := machine.recorder.create (function, key) location
            state := machine.state.set machine.heap function key args value }
        pure value
      else pure .undefined

/-- Reads a location; the body of a derived function is evaluated by `evalBody`. -/
def readWith (setting : Setting) (evalBody : Expr → Run Value) (function : FunctionId)
    (args : List Value) : Run Value :=
  let decl := setting.spec.function function
  match decl.kind with
  | .derived params body =>
    if params.length = args.length then withFrame params args (evalBody body)
    else raise (.functionArity decl.name params.length args.length)
  | .controlled | .static => readStored setting function args

/-- The value of a node, given the values of its children. -/
def evalNode (setting : Setting) (evalBody : Expr → Run Value) (expr : Expr) (args : List Value) :
    Run Value :=
  match expr, args with
  | .int value, _ => pure (.int value)
  | .float value, _ => pure (.float value)
  | .bool value, _ => pure (.bool value)
  | .str value, _ => pure (.str value)
  | .undefined, _ => pure .undefined
  | .rule id, _ => pure (.rule id)
  | .var name, _ => do
    let machine ← get
    pure (machine.lookupLocal name)
  | .read function _, args => readWith setting evalBody function args
  | .builtin op _, args => builtin setting op args
  | .binary op _ _, [left, right] => binary setting op left right
  | .binary _ _ _, _ => pure .undefined
  | .not _, [value] => negation value
  | .not _, _ => pure .undefined
  | .list _, args => do
    let handle ← onHeap fun heap => heap.ofList args
    pure (.list handle)
  | .range _ _, [low, high] => range low high
  | .range _ _, _ => pure .undefined

/-- Visits one node: unless a child failed, its value is computed. -/
def visitNode (setting : Setting) (evalBody : Expr → Run Value) (expr : Expr)
    (children : List (Except Fault Value)) : Run (Except Fault Value) :=
  attempt do
    let args ← collect children
    evalNode setting evalBody expr args

def eval (setting : Setting) : Nat → Expr → Run Value
  | 0, _ => outOfFuel
  | fuel + 1, expr => do
    let result ← expr.foldM (visitNode setting (eval setting fuel))
    match result with
    | .ok value => pure value
    | .error fault => throw (.fault fault)

def evalAll (setting : Setting) (fuel : Nat) : List Expr → Run (List Value)
  | [] => pure []
  | expr :: rest => do
    let value ← eval setting fuel expr
    let values ← evalAll setting fuel rest
    pure (value :: values)

def read (setting : Setting) (fuel : Nat) (function : FunctionId) (args : List Value) :
    Run Value :=
  readWith setting (eval setting fuel) function args

/-- Decides a branch. `undef` counts as false; a symbol is decided by the path if possible, else it
is assumed to be true. -/
def decide (setting : Setting) (value : Value) : Run Bool :=
  match value with
  | .bool b => pure b
  | .undefined => pure false
  | other =>
    match Condition.ofVerdict? other with
    | none => raise (.branchCondition other.kind)
    | some cond => do
      let machine ← get
      match machine.recorder.check cond with
      | .holds => pure true
      | .fails => pure false
      | .unknown =>
        let lhs := machine.term setting cond.lhs
        let rhs := machine.term setting cond.rhs
        set { machine with recorder := machine.recorder.assume cond lhs rhs }
        pure true

end Run

end AbstractStateMachine
