import AbstractStateMachine.Location.Key
import AbstractStateMachine.OrderedMap
import AbstractStateMachine.Specification
import AbstractStateMachine.Value.Equality

/-!
The state of a machine as an interpretation of its function names: the value of every location that
has one. Locations whose arguments share a key lie in one bucket.
-/

namespace AbstractStateMachine

structure StoredLocation where
  args : List Value
  value : Value
  deriving DecidableEq, Repr

abbrev Bucket := List StoredLocation

namespace Bucket

def get? (heap : ListHeap) (bucket : Bucket) (args : List Value) : Option Value :=
  (bucket.find? fun location => heap.sameArgs location.args args).map (·.value)

def set (heap : ListHeap) (args : List Value) (value : Value) : Bucket → Bucket
  | [] => [⟨args, value⟩]
  | location :: rest =>
    if heap.sameArgs location.args args then { location with value } :: rest
    else location :: Bucket.set heap args value rest

end Bucket

abbrev Table := OrderedMap ArgKey Bucket

structure Interpretation where
  tables : Array Table

namespace Interpretation

def empty (spec : Specification) : Interpretation :=
  ⟨Array.replicate spec.functions.size .empty⟩

def table (state : Interpretation) (function : FunctionId) : Table :=
  state.tables.getD function.index .empty

/-- The value of a location; `key` has to be the key of the arguments. -/
def get? (state : Interpretation) (heap : ListHeap) (function : FunctionId) (key : ArgKey)
    (args : List Value) : Option Value :=
  ((state.table function).get? key).bind fun bucket => Bucket.get? heap bucket args

def set (state : Interpretation) (heap : ListHeap) (function : FunctionId) (key : ArgKey)
    (args : List Value) (value : Value) : Interpretation :=
  let table := state.table function
  let bucket := Bucket.set heap args value ((table.get? key).getD [])
  ⟨state.tables.setIfInBounds function.index (table.insert key bucket)⟩

def locations (state : Interpretation) : List StoredLocation :=
  state.tables.toList.flatMap fun table => table.values.flatten

/-- Every stored argument and value, the arguments of a location before its value. -/
def values (state : Interpretation) : List Value :=
  state.locations.flatMap fun location => location.args ++ [location.value]

end Interpretation

end AbstractStateMachine
