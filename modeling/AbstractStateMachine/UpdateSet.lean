import AbstractStateMachine.Fault
import AbstractStateMachine.Location.Key
import AbstractStateMachine.OrderedMap
import AbstractStateMachine.Value.Equality

/-!
The writes of one step, buffered until its end. Blocks stack up layers: a layer at an even depth
belongs to a sequential block, one at an odd depth to a parallel block. Inside a sequential layer a
later write replaces an earlier one and is seen by reads; the writes of a parallel layer have to
agree and stay invisible until the layer is merged into the one below.
-/

namespace AbstractStateMachine

structure Update where
  function : FunctionId
  key : ArgKey
  args : List Value
  value : Value
  span : Span := {}
  /-- Depth of the layer that holds the update. -/
  layer : Nat
  deriving DecidableEq, Repr

abbrev LocationKey := FunctionId × ArgKey

abbrev Layer := OrderedMap LocationKey Update

structure UpdateSet where
  /-- The layer of the innermost block. -/
  top : Layer := .empty
  /-- The layers of the enclosing blocks, the next outer one first. -/
  below : List Layer := []

namespace Layer

def conflict (cause : Cause) (existing update : Update) : Fault :=
  { cause, span := update.span, other := some existing.span }

/-- Records a write that must agree with an earlier one of the same key. -/
def join (heap : ListHeap) (layer : Layer) (update : Update) : Except Fault Layer :=
  match layer.get? (update.function, update.key) with
  | none => .ok (layer.insert (update.function, update.key) update)
  | some existing =>
    if heap.equal existing.value update.value then .ok layer
    else .error (conflict .disagreement existing update)

/-- Records a write that replaces an earlier one of the same location. -/
def override (heap : ListHeap) (layer : Layer) (update : Update) : Except Fault Layer :=
  match layer.get? (update.function, update.key) with
  | none => .ok (layer.insert (update.function, update.key) update)
  | some existing =>
    if heap.sameArgs existing.args update.args then
      .ok (layer.insert (update.function, update.key) update)
    else .error (conflict .keyCollision existing update)

def record (heap : ListHeap) (parallel : Bool) (layer : Layer) (update : Update) :
    Except Fault Layer :=
  if parallel then layer.join heap update else layer.override heap update

/-- Records updates in order up to the first that fails; those before it stay. -/
def recordAll (heap : ListHeap) (parallel : Bool) : Layer → List Update → Layer × Option Fault
  | layer, [] => (layer, none)
  | layer, update :: rest =>
    match layer.record heap parallel update with
    | .ok layer => recordAll heap parallel layer rest
    | .error fault => (layer, some fault)

end Layer

namespace UpdateSet

def layers (set : UpdateSet) : List Layer := set.top :: set.below

def depth (set : UpdateSet) : Nat := set.below.length

def inParallel (set : UpdateSet) : Bool := set.depth % 2 == 1

def push (set : UpdateSet) : UpdateSet := { top := .empty, below := set.top :: set.below }

/-- Enters a parallel block and tells whether that took a new layer, which the matching `merge`
needs to know. -/
def forkParallel (set : UpdateSet) : Bool × UpdateSet :=
  if set.inParallel then (false, set) else (true, set.push)

/-- Enters a sequential block, like `forkParallel`. -/
def forkSequential (set : UpdateSet) : Bool × UpdateSet :=
  if set.inParallel then (true, set.push) else (false, set)

def topIsEmpty (set : UpdateSet) : Bool := set.top.isEmpty

def add (set : UpdateSet) (heap : ListHeap) (digest : Digest) (function : FunctionId)
    (args : List Value) (value : Value) (span : Span) : Except Fault UpdateSet :=
  let update : Update :=
    { function, key := heap.argKey digest args, args, value, span, layer := set.depth }
  (set.top.record heap set.inParallel update).map fun top => { set with top }

/-- Merges the innermost layer into the one below. After a fault the layer is gone, and what was
merged before the fault stays. -/
def mergeTop (set : UpdateSet) (heap : ListHeap) (agree : Bool) : UpdateSet × Option Fault :=
  match set.below with
  | [] => (set, none)
  | parent :: below =>
    let moved := set.top.values.map fun update => { update with layer := below.length }
    let (top, fault) := parent.recordAll heap agree moved
    ({ top, below }, fault)

def merge (set : UpdateSet) (heap : ListHeap) (forked : Bool) : UpdateSet × Option Fault :=
  if forked then set.mergeTop heap set.inParallel else (set, none)

/-- Ends one round of an iteration. Rounds follow each other, so a round replaces what earlier
rounds wrote. -/
def mergeRound (set : UpdateSet) (heap : ListHeap) (forked : Bool) : UpdateSet × Option Fault :=
  if forked then set.mergeTop heap false else (set, none)

/-- The newest pending value among the sequential layers. -/
def lookupIn (heap : ListHeap) (function : FunctionId) (key : ArgKey) (args : List Value) :
    List Layer → Option Value
  | [] => none
  | layer :: below =>
    let found :=
      if below.length % 2 == 1 then none
      else (layer.get? (function, key)).filter fun update => heap.sameArgs update.args args
    match found with
    | some update => some update.value
    | none => lookupIn heap function key args below

def lookup (set : UpdateSet) (heap : ListHeap) (function : FunctionId) (key : ArgKey)
    (args : List Value) : Option Value :=
  lookupIn heap function key args set.layers

def size (set : UpdateSet) : Nat :=
  set.layers.foldr (fun layer total => layer.size + total) 0

def isEmpty (set : UpdateSet) : Bool := set.size == 0

def bottom (set : UpdateSet) : Layer := set.below.getLastD set.top

/-- The updates of a completed step in the order in which they were recorded. -/
def updates (set : UpdateSet) : List Update := set.bottom.values

end UpdateSet

end AbstractStateMachine
