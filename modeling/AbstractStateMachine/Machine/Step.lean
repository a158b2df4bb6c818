import AbstractStateMachine.Machine.Exec

/-!
Steps of a machine: the rule that `program` holds is executed, its updates are applied all at once,
and the list nodes that are no longer needed are reclaimed.
-/

namespace AbstractStateMachine

namespace Machine

def abandonStep (machine : Machine) : Machine :=
  { machine with pending := {}, locals := [], frameBase := 0 }

def updateText (setting : Setting) (machine : Machine) (update : Update) : String :=
  machine.heap.locationText setting.spec (setting.spec.function update.function).name update.args
    ++ " = " ++ machine.text setting update.value

def updatesText (setting : Setting) (machine : Machine) (updates : List Update) : String :=
  if updates.isEmpty then "\x7b \x7d"
  else "\x7b " ++ ", ".intercalate (updates.map (machine.updateText setting)) ++ " \x7d"

/-- A value to be stored; lists are stored flat. -/
def flattenValue (machine : Machine) (value : Value) : Value × Machine :=
  match value with
  | .list handle =>
    let (flat, heap) := machine.heap.flatten handle
    (.list flat, { machine with heap })
  | other => (other, machine)

def flattenValues (machine : Machine) : List Value → List Value × Machine
  | [] => ([], machine)
  | value :: rest =>
    let (value, machine) := machine.flattenValue value
    let (values, machine) := machine.flattenValues rest
    (value :: values, machine)

/-- Stores one update and, in symbolic mode, reports it. The rule to run next is not reported. -/
def applyUpdate (setting : Setting) (machine : Machine) (update : Update) : Machine :=
  let (value, machine) := machine.flattenValue update.value
  let (args, machine) := machine.flattenValues update.args
  let machine :=
    if setting.symbolic && update.function != Specification.program then
      let location : TrackedLocation :=
        { function := (setting.spec.function update.function).name
          args := args.map (machine.term setting)
          value := machine.term setting value }
      { machine with
        recorder := machine.recorder.update (update.function, update.key) location }
    else machine
  { machine with
    state := machine.state.set machine.heap update.function update.key args value }

/-- The locations whose new values a step reports. -/
def touched (updates : List Update) : List LocationKey :=
  (updates.filter (·.function != Specification.program)).map fun update =>
    (update.function, update.key)

/-- Applies the pending updates to the state; at the end of a step they are also summarized, and a
new timestep begins. -/
def applyPending (setting : Setting) (endOfStep : Bool) (machine : Machine) : Machine :=
  let updates := machine.pending.updates
  let machine := { machine with pending := {} }
  let machine :=
    if setting.dumpUpdates && endOfStep then
      { machine with dumps := machine.dumps.push (machine.updatesText setting updates) }
    else machine
  let report := setting.symbolic && endOfStep
  let machine :=
    if report then { machine with recorder := machine.recorder.advance } else machine
  let machine := updates.foldl (applyUpdate setting) machine
  if report then
    { machine with recorder := machine.recorder.repeatOthers (touched updates) }
  else machine

/-- Values that are needed in later steps. -/
def roots (machine : Machine) : List Value :=
  machine.state.values ++ machine.recorder.path.flatMap fun cond => [cond.lhs, cond.rhs]

/-- Frees the lists that are no longer needed and begins a new epoch. -/
def reclaimLists (machine : Machine) : Machine :=
  let (lease, heap) := (machine.heap.reclaim machine.roots).beginEpoch
  { machine with heap, lease }

def halt (setting : Setting) (machine : Machine) : Machine :=
  { machine with
    halted := true
    recorder := if setting.symbolic then machine.recorder.finish else machine.recorder }

end Machine

namespace Run

def writeInitializers (setting : Setting) (fuel : Nat) (function : FunctionId) :
    List (List Expr × Expr) → Run Unit
  | [] => pure ()
  | (args, value) :: rest => do
    let args ← evalAll setting fuel args
    let value ← eval setting fuel value
    write setting function args value {}
    writeInitializers setting fuel function rest

def writeAllInitializers (setting : Setting) (fuel : Nat) : List FunctionId → Run Unit
  | [] => pure ()
  | function :: rest => do
    writeInitializers setting fuel function (setting.spec.function function).initializers
    writeAllInitializers setting fuel rest

def scheduleStart (setting : Setting) (fuel : Nat) : Run Unit := do
  writeAllInitializers setting fuel setting.spec.functionIds
  match setting.spec.start with
  | none => pure ()
  | some rule => write setting Specification.program [] (.rule rule) {}

/-- Runs a computation; if it fails, what it has left pending is dropped. -/
def orAbandon {α : Type} (run : Run α) : Run α := fun machine =>
  match run machine with
  | (.ok value, machine) => (.ok value, machine)
  | (.error stop, machine) => (.error stop, machine.abandonStep)

def init (setting : Setting) (fuel : Nat) : Run Unit := do
  orAbandon (scheduleStart setting fuel)
  modify fun machine => (machine.applyPending setting false).reclaimLists

/-- Executes one step. Returns whether there was one to execute: a machine whose `program` is
`undef` halts. -/
def step (setting : Setting) (fuel : Nat) : Run Bool := do
  let machine ← get
  if machine.halted then return false
  modify fun machine => { machine with span := {} }
  let program ← read setting fuel Specification.program []
  match program with
  | .undefined =>
    modify (Machine.halt setting)
    pure false
  | .rule rule =>
    orAbandon (callRule setting (exec setting fuel) rule [])
    modify fun machine =>
      let machine := machine.applyPending setting true
      ({ machine with steps := machine.steps + 1 }).reclaimLists
    pure true
  | other => raise (.programHolds other.kind)

/-- Steps until the machine halts or the limit is reached, and tells whether it has halted. -/
def run (setting : Setting) (fuel : Nat) : Nat → Option Nat → Run Bool
  | 0, _ => outOfFuel
  | rounds + 1, limit => do
    if limit = some 0 then return false
    let stepped ← step setting fuel
    if stepped then run setting fuel rounds (limit.map (· - 1)) else pure true

end Run

end AbstractStateMachine
