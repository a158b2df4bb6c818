import AbstractStateMachine.ListHeap.Reclaim
import AbstractStateMachine.Location.Interpretation
import AbstractStateMachine.Symbolic.Recorder
import AbstractStateMachine.UpdateSet
import AbstractStateMachine.Value.Printer

/-!
The state of a machine and the computations on it. A computation may stop with a fault or because
its fuel is used up; the state it has reached is kept in both cases.
-/

namespace AbstractStateMachine

/-- What stays the same while a machine runs. -/
structure Setting where
  spec : Specification
  /-- Turn unseen locations of symbolic functions into symbols and record a trace. -/
  symbolic : Bool := false
  /-- Record a summary of the updates of every step. -/
  dumpUpdates : Bool := false
  digest : Digest := .tokens

structure Binding where
  name : String
  value : Value
  deriving DecidableEq, Repr

structure Machine where
  heap : ListHeap := {}
  /-- Permission to append to the lists of the current step. -/
  lease : Lease
  state : Interpretation
  pending : UpdateSet := {}
  recorder : Recorder := {}
  /-- The bindings of all frames, innermost first. -/
  locals : List Binding := []
  /-- The number of bindings that lie below the current frame. -/
  frameBase : Nat := 0
  /-- The statement executed last. -/
  span : Span := {}
  output : Array String := #[]
  dumps : Array String := #[]
  steps : Nat := 0
  halted : Bool := false

/-- Why a computation ended without a result. -/
inductive Stop where
  | fault (fault : Fault)
  | outOfFuel
  deriving DecidableEq, Repr

abbrev Run := ExceptT Stop (StateM Machine)

namespace Machine

def new (setting : Setting) : Machine :=
  let (lease, heap) := ListHeap.beginEpoch {}
  { heap, lease, state := .empty setting.spec }

/-- The bindings that the executing rule or derived function sees. -/
def visible (machine : Machine) : List Binding :=
  machine.locals.take (machine.locals.length - machine.frameBase)

def lookupLocal (machine : Machine) (name : String) : Value :=
  ((machine.visible.find? (·.name == name)).map (·.value)).getD .undefined

def get (setting : Setting) (machine : Machine) (function : FunctionId) (args : List Value) :
    Value :=
  let key := machine.heap.argKey setting.digest args
  (machine.state.get? machine.heap function key args).getD .undefined

def text (setting : Setting) (machine : Machine) (value : Value) : String :=
  machine.heap.text setting.spec value

/-- The value as an operand of a trace assertion. -/
def term (setting : Setting) (machine : Machine) (value : Value) : Term :=
  (Term.ofScalar? value).getD (.text (machine.text setting value))

end Machine

namespace Run

def raise {α : Type} (cause : Cause) : Run α := do
  let machine ← get
  throw (.fault { cause, span := machine.span })

def outOfFuel {α : Type} : Run α := throw .outOfFuel

def ofFault : Option Fault → Run Unit
  | none => pure ()
  | some fault => throw (.fault fault)

/-- Runs a computation whose fault, if any, is dealt with later. -/
def attempt {α : Type} (run : Run α) : Run (Except Fault α) := fun machine =>
  match run machine with
  | (.ok value, machine) => (.ok (.ok value), machine)
  | (.error (.fault fault), machine) => (.ok (.error fault), machine)
  | (.error .outOfFuel, machine) => (.error .outOfFuel, machine)

/-- Runs a computation and restores the bindings, whether it succeeds or not. -/
def restoring {α : Type} (restore : Machine → Machine) (run : Run α) : Run α := fun machine =>
  let (result, machine) := run machine
  (result, restore machine)

/-- The results in order, or the first fault among them. -/
def collect {α : Type} : List (Except Fault α) → Run (List α)
  | [] => pure []
  | .ok value :: rest => do
    let values ← collect rest
    pure (value :: values)
  | .error fault :: _ => throw (.fault fault)

def onHeap (operation : ListHeap → Handle × ListHeap) : Run Handle := do
  let machine ← get
  let (handle, heap) := operation machine.heap
  set { machine with heap }
  pure handle

def onRecorder {α : Type} (operation : Recorder → α × Recorder) : Run α := do
  let machine ← get
  let (result, recorder) := operation machine.recorder
  set { machine with recorder }
  pure result

def onPending {α : Type} (operation : UpdateSet → α × UpdateSet) : Run α := do
  let machine ← get
  let (result, pending) := operation machine.pending
  set { machine with pending }
  pure result

def withLocal {α : Type} (name : String) (value : Value) (run : Run α) : Run α := do
  modify fun machine => { machine with locals := ⟨name, value⟩ :: machine.locals }
  restoring (fun machine => { machine with locals := machine.locals.tail }) run

/-- Runs a computation in a frame of its own, in which it sees the parameters only. -/
def withFrame {α : Type} (params : List String) (args : List Value) (run : Run α) : Run α := do
  let caller ← get
  let bindings := (List.zipWith Binding.mk params args).reverse
  modify fun machine =>
    { machine with frameBase := machine.locals.length, locals := bindings ++ machine.locals }
  restoring
    (fun machine =>
      { machine with
        locals := machine.locals.drop (machine.locals.length - machine.frameBase)
        frameBase := caller.frameBase })
    run

def write (setting : Setting) (function : FunctionId) (args : List Value) (value : Value)
    (span : Span) : Run Unit := do
  let machine ← get
  match machine.pending.add machine.heap setting.digest function args value span with
  | .ok pending => set { machine with pending }
  | .error fault => throw (.fault fault)

def leave (merge : UpdateSet → ListHeap → Bool → UpdateSet × Option Fault) (forked : Bool) :
    Run Unit := do
  let machine ← get
  let (pending, fault) := merge machine.pending machine.heap forked
  set { machine with pending }
  ofFault fault

end Run

end AbstractStateMachine
