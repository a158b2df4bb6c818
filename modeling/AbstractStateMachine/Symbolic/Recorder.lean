import AbstractStateMachine.OrderedMap
import AbstractStateMachine.Symbolic.Condition
import AbstractStateMachine.Symbolic.Trace
import AbstractStateMachine.UpdateSet

/-!
The bookkeeping of a symbolic run: fresh symbols, the conditions assumed along the path taken, the
locations whose values are reported at every timestep, and the trace.
-/

namespace AbstractStateMachine

/-- A location whose value is reported at every timestep. -/
structure TrackedLocation where
  function : String
  args : List Term
  value : Term
  deriving DecidableEq, Repr

structure Recorder where
  lastSymbol : Nat := 0
  /-- Number of the last assertion. -/
  lastAssertion : Nat := 0
  timestamp : Nat := 0
  path : List Condition := []
  tracked : OrderedMap LocationKey TrackedLocation := .empty
  trace : Array TraceEntry := #[]

namespace Recorder

def nextSymbol (recorder : Recorder) : Nat × Recorder :=
  (recorder.lastSymbol + 1, { recorder with lastSymbol := recorder.lastSymbol + 1 })

def advance (recorder : Recorder) : Recorder :=
  { recorder with timestamp := recorder.timestamp + 1 }

/-- Numbers an assertion and adds it to the trace. -/
def assert (recorder : Recorder) (entry : Nat → TraceEntry) : Recorder :=
  let id := recorder.lastAssertion + 1
  { recorder with lastAssertion := id, trace := recorder.trace.push (entry id) }

/-- A new symbol, declared in the trace. -/
def fresh (recorder : Recorder) : Nat × Recorder :=
  let (id, recorder) := recorder.nextSymbol
  (id, { recorder with trace := recorder.trace.push (.declare id) })

/-- A new symbol that stands for an undecided condition. -/
def freshVerdict (recorder : Recorder) (cond : Condition) : Value × Recorder :=
  let (id, recorder) := recorder.fresh
  (.verdict id cond.lhs cond.op cond.rhs, recorder)

def define (recorder : Recorder) (op : DefinitionOp) (lhs rhs : Term) : Nat × Recorder :=
  let (symbol, recorder) := recorder.fresh
  (symbol, recorder.assert fun id => .definition id symbol op lhs rhs)

def check (recorder : Recorder) (candidate : Condition) : Verdict :=
  Condition.check recorder.path candidate

/-- Adds a condition to the path and to the trace. -/
def assume (recorder : Recorder) (cond : Condition) (lhs rhs : Term) : Recorder :=
  let recorder := recorder.assert fun id => .condition id lhs cond.op rhs
  { recorder with path := recorder.path ++ [cond] }

def reportAt (recorder : Recorder) (location : TrackedLocation) (time : Timestep) : Recorder :=
  recorder.assert fun id => .state id location.function time location.args location.value

def track (recorder : Recorder) (key : LocationKey) (location : TrackedLocation) : Recorder :=
  { recorder with tracked := recorder.tracked.insert key location }

/-- Reports a location that has just come into being; its value holds at all timesteps so far. -/
def create (recorder : Recorder) (key : LocationKey) (location : TrackedLocation) : Recorder :=
  let times := List.range (recorder.timestamp + 1)
  let recorder := times.foldl (fun recorder time => recorder.reportAt location (.at time)) recorder
  recorder.track key location

/-- Reports the new value of a location at the current timestep. -/
def update (recorder : Recorder) (key : LocationKey) (location : TrackedLocation) : Recorder :=
  (recorder.reportAt location (.at recorder.timestamp)).track key location

/-- Repeats the values of the tracked locations that the current step did not touch. -/
def repeatOthers (recorder : Recorder) (touched : List LocationKey) : Recorder :=
  recorder.tracked.entries.foldl
    (fun recorder (key, location) =>
      if key ∈ touched then recorder else recorder.reportAt location (.at recorder.timestamp))
    recorder

/-- Reports the final value of every tracked location. -/
def finish (recorder : Recorder) : Recorder :=
  recorder.tracked.values.foldl (fun recorder location => recorder.reportAt location .final)
    recorder

def lines (recorder : Recorder) : List String := recorder.trace.toList.map TraceEntry.line

end Recorder

end AbstractStateMachine
