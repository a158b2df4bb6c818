import AbstractStateMachine.Proofs.Backend.Calls
import AbstractStateMachine.Proofs.Location.Tables
import AbstractStateMachine.Proofs.Plain.Datum
import AbstractStateMachine.Proofs.UpdateSet.Stack

/-!
# Machines without a list heap

A plain machine handles data. Its pending updates are layered and its locations filed as those of
any machine, but there are no handles: nothing is shared, appended to in place, flattened or
reclaimed.
-/

namespace AbstractStateMachine.Plain

structure Update where
  function : FunctionId
  args : List Datum
  value : Datum
  span : Span

structure Location where
  args : List Datum
  value : Datum

def sameArgs : List Datum → List Datum → Bool := allPairs Datum.equal

def Update.handling (digest : Digest) : Handling Update where
  location update := (update.function, Datum.argKey digest update.args)
  span := Update.span
  sameValue existing update := existing.value.equal update.value
  sameArgs existing update := sameArgs existing.args update.args
  movedTo _ update := update

structure Machine where
  tables : Tables Location
  pending : Stack Update := {}
  locals : List (String × Datum) := []
  frameBase : Nat := 0
  span : Span := {}
  output : Array String := #[]
  dumps : Array String := #[]
  steps : Nat := 0
  halted : Bool := false

namespace Machine

def new (setting : Setting) : Machine :=
  { tables := Array.replicate setting.spec.functions.size .empty }

def lookupLocal (machine : Machine) (name : String) : Datum :=
  let visible := machine.locals.take (machine.locals.length - machine.frameBase)
  ((visible.find? (·.1 == name)).map (·.2)).getD .undefined

def pending? (setting : Setting) (machine : Machine) (function : FunctionId) (args : List Datum) :
    Option Datum :=
  (machine.pending.find (fun update => sameArgs update.args args)
    (function, Datum.argKey setting.digest args)).map Update.value

def stored? (setting : Setting) (machine : Machine) (function : FunctionId) (args : List Datum) :
    Option Datum :=
  (Tables.find (fun location => sameArgs location.args args) function
    (Datum.argKey setting.digest args) machine.tables).map Location.value

def get (setting : Setting) (machine : Machine) (function : FunctionId) (args : List Datum) :
    Datum :=
  (machine.stored? setting function args).getD .undefined

end Machine

def store (digest : Digest) (tables : Tables Location) (update : Update) : Tables Location :=
  Tables.store (fun location => sameArgs location.args update.args)
    (fun location => { location with value := update.value }) ⟨update.args, update.value⟩
    update.function (Datum.argKey digest update.args) tables

def updateText (spec : Specification) (update : Update) : String :=
  Expr.application (spec.function update.function).name (update.args.map (Datum.text spec)) ++
    " = " ++ update.value.text spec

def updatesText (spec : Specification) (updates : List Update) : String :=
  if updates.isEmpty then "\x7b \x7d"
  else "\x7b " ++ ", ".intercalate (updates.map (updateText spec)) ++ " \x7d"

/-- Stores the pending updates; at the end of a step they are also summarized. -/
def Machine.commit (setting : Setting) (endOfStep : Bool) (machine : Machine) : Machine :=
  let updates := machine.pending.updates
  { machine with
    tables := updates.foldl (store setting.digest) machine.tables
    pending := {}
    dumps :=
      if setting.dumpUpdates && endOfStep then
        machine.dumps.push (updatesText setting.spec updates)
      else machine.dumps
    steps := if endOfStep then machine.steps + 1 else machine.steps }

abbrev Run := Computation Machine

namespace Run

def raise {α : Type} (cause : Cause) : Run α := do
  let machine ← get
  throw (.fault { cause, span := machine.span })

def ofFault : Option Fault → Run Unit
  | none => pure ()
  | some fault => throw (.fault fault)

def outcome : Datum.Outcome → Run Datum
  | .ok datum => pure datum
  | .error error => raise (.operands error)

def range (low high : Datum) : Run Datum :=
  match low, high with
  | .int low, .int high =>
    pure (.list ((AbstractStateMachine.Run.integersBetween low high).map Datum.ofScalar))
  | low, high =>
    if low.kind = .undefined ∨ high.kind = .undefined then pure .undefined
    else raise (.rangeBounds low.kind high.kind)

/-- The value of a node that is not a read, given the values of its children. -/
def operate (expr : Expr) (args : List Datum) : Run Datum :=
  match expr, args with
  | .int value, _ => pure (.int value)
  | .float value, _ => pure (.float value)
  | .bool value, _ => pure (.bool value)
  | .str value, _ => pure (.str value)
  | .undefined, _ => pure .undefined
  | .rule id, _ => pure (.rule id)
  | .var name, _ => do
    let machine ← get
    pure (machine.lookupLocal name)
  | .builtin op _, args => outcome (Datum.builtin op args)
  | .binary op _ _, [left, right] => outcome (Datum.binary op left right)
  | .not _, [operand] => outcome operand.not
  | .list _, args => pure (.list args)
  | .range _ _, [low, high] => range low high
  | .read _ _, _ | .binary _ _ _, _ | .not _, _ | .range _ _, _ => pure .undefined

def decide : Datum → Run Bool
  | .bool b => pure b
  | .undefined => pure false
  | other => raise (.branchCondition other.kind)

def elements : Datum → Run (List Datum)
  | .list elements => pure elements
  | .undefined => pure []
  | other => raise (.domain other.kind)

def ruleOf : Datum → Run RuleId
  | .rule rule => pure rule
  | .undefined => raise .callOfUndefined
  | other => raise (.callOf other.kind)

def pushed (value current : Datum) : Run Datum :=
  match current with
  | .list elements => pure (.list (value :: elements))
  | .undefined => pure (.list [value])
  | other => raise (.pushInto other.kind)

def popped : Datum → Run (Datum × Option Datum)
  | .list elements => pure (elements.headD .undefined, some (.list elements.tail))
  | .undefined => pure (.undefined, none)
  | other => raise (.popFrom other.kind)

def scheduled : Datum → Run (Option RuleId)
  | .undefined => pure none
  | .rule rule => pure (some rule)
  | other => raise (.programHolds other.kind)

def readStored (setting : Setting) (function : FunctionId) (args : List Datum) : Run Datum := do
  let machine ← get
  pure (((machine.pending? setting function args).or
    (machine.stored? setting function args)).getD .undefined)

def write (setting : Setting) (function : FunctionId) (args : List Datum) (value : Datum)
    (span : Span) : Run Unit := do
  let machine ← get
  match machine.pending.add (Update.handling setting.digest) { function, args, value, span } with
  | .ok pending => set { machine with pending }
  | .error fault => throw (.fault fault)

def enter (parallel : Bool) : Run Bool := do
  let machine ← get
  let (forked, pending) := machine.pending.enter parallel
  set { machine with pending }
  pure forked

def leave (merge : Stack Update → Stack Update × Option Fault) : Run Unit := do
  let machine ← get
  let (pending, fault) := merge machine.pending
  set { machine with pending }
  ofFault fault

end Run

def backend (setting : Setting) : Backend Machine Datum where
  spec := setting.spec
  span := Machine.span
  setSpan span machine := { machine with span }
  bindLocal name value machine := { machine with locals := (name, value) :: machine.locals }
  unbindLocal machine := { machine with locals := machine.locals.tail }
  enterFrame params args machine :=
    { machine with
      frameBase := machine.locals.length
      locals := (List.zip params args).reverse ++ machine.locals }
  leaveFrame caller machine :=
    { machine with
      locals := machine.locals.drop (machine.locals.length - machine.frameBase)
      frameBase := caller.frameBase }
  readStored := Run.readStored setting
  operate := Run.operate
  decide := Run.decide
  equal _ := Datum.equal
  elements := Run.elements
  ruleOf := Run.ruleOf
  text _ := Datum.text setting.spec
  print values := modify fun machine =>
    let line := String.join (values.map (Datum.text setting.spec))
    { machine with output := machine.output.push line }
  pushed := Run.pushed
  popped := Run.popped
  write := Run.write setting
  enter := Run.enter
  leave forked := Run.leave (Stack.merge (Update.handling setting.digest) forked)
  leaveRound forked := Run.leave (Stack.mergeRound (Update.handling setting.digest) forked)
  recordsNothing machine := machine.pending.top.isEmpty
  ofRule := .rule
  halted := Machine.halted
  scheduled := Run.scheduled
  halt machine := { machine with halted := true }
  abandon machine := { machine with pending := {}, locals := [], frameBase := 0 }
  commit := Machine.commit setting

end AbstractStateMachine.Plain
