import AbstractStateMachine.Value.Basic

/-!
Persistent lists as small graphs of nodes that share element buffers. A handle sees a fixed range of
its buffer, so it never observes a later change; the one mutation is an append behind the last
element of a buffer of the current epoch, through a handle whose view ends there.

`toList` is the sequence a handle denotes. A freed handle denotes the empty sequence.
-/

namespace AbstractStateMachine

namespace ListHeap

inductive Node where
  /-- A buffer of elements, of which the node itself sees the first `length`. -/
  | base (buffer : Array Value) (length : Nat)
  /-- The elements from `start` up to before `stop` of the buffer of a base node. -/
  | slice (base : Handle) (start stop : Nat)
  /-- One value in front of another list. -/
  | head (value : Value) (rest : Handle)
  deriving DecidableEq, Repr

structure Slot where
  node : Node
  /-- The epoch in which the node was made. -/
  epoch : Nat
  deriving DecidableEq, Repr

end ListHeap

open ListHeap in
structure ListHeap where
  slots : Array (Option Slot) := #[]
  /-- Indices of the unused slots, next to be used first. -/
  free : List Nat := []
  epoch : Nat := 0
  deriving Repr

/-- Permission to append in place to the lists of one epoch. -/
structure Lease where
  epoch : Nat
  deriving DecidableEq, Repr, Inhabited

namespace ListHeap

/-- Starts an epoch. Lists made before are never appended to in place again. -/
def beginEpoch (heap : ListHeap) : Lease × ListHeap :=
  (⟨heap.epoch + 1⟩, { heap with epoch := heap.epoch + 1 })

def slot? (heap : ListHeap) (handle : Handle) : Option Slot := (heap.slots[handle.index]?).join

def node? (heap : ListHeap) (handle : Handle) : Option Node := (heap.slot? handle).map (·.node)

def alloc (heap : ListHeap) (node : Node) : Handle × ListHeap :=
  let slot : Slot := ⟨node, heap.epoch⟩
  match heap.free with
  | index :: rest =>
    (⟨index⟩, { heap with slots := heap.slots.setIfInBounds index (some slot), free := rest })
  | [] => (⟨heap.slots.size⟩, { heap with slots := heap.slots.push (some slot) })

def ofList (heap : ListHeap) (values : List Value) : Handle × ListHeap :=
  heap.alloc (.base values.toArray values.length)

def empty (heap : ListHeap) : Handle × ListHeap := heap.ofList []

def cons (heap : ListHeap) (value : Value) (list : Handle) : Handle × ListHeap :=
  heap.alloc (.head value list)

/-- Elements of a buffer from `start` up to before `stop`. -/
def window (buffer : Array Value) (start stop : Nat) : List Value :=
  (buffer.extract start stop).toList

def buffer (heap : ListHeap) (base : Handle) : Array Value :=
  match heap.node? base with
  | some (.base buffer _) => buffer
  | _ => #[]

/-- The elements of a list whose chain of heads has at most `depth` links. -/
def elements (heap : ListHeap) : Nat → Handle → List Value
  | 0, _ => []
  | depth + 1, list =>
    match heap.node? list with
    | none => []
    | some (.base buffer length) => window buffer 0 length
    | some (.slice base start stop) => window (heap.buffer base) start stop
    | some (.head value rest) => value :: heap.elements depth rest

/-- A chain of heads cannot be longer than the heap. -/
def toList (heap : ListHeap) (list : Handle) : List Value :=
  heap.elements (heap.slots.size + 1) list

/-- The list without its first element; the tail of the empty list is empty. -/
def tail (heap : ListHeap) (list : Handle) : Handle × ListHeap :=
  match heap.node? list with
  | some (.head _ rest) => (rest, heap)
  | some (.base _ length) => heap.alloc (.slice list (min 1 length) length)
  | some (.slice base start stop) => heap.alloc (.slice base (min (start + 1) stop) stop)
  | none => heap.empty

/-- The buffer a list looks at, with the bounds of its view. -/
def view? (heap : ListHeap) (list : Handle) : Option (Handle × Nat × Nat) :=
  match heap.node? list with
  | some (.base _ length) => some (list, 0, length)
  | some (.slice base start stop) => some (base, start, stop)
  | _ => none

/-- The view of a list that may be appended to in place: its buffer is of the epoch of a lease that
is current, and the view ends at the end of the buffer. -/
def growable? (heap : ListHeap) (lease : Lease) (list : Handle) :
    Option (Handle × Array Value × Nat × Nat × Nat) :=
  if lease.epoch = heap.epoch then
    match heap.view? list with
    | some (base, start, stop) =>
      match heap.slot? base with
      | some ⟨.base buffer length, epoch⟩ =>
        if epoch = lease.epoch ∧ buffer.size = stop then some (base, buffer, length, start, stop)
        else none
      | _ => none
    | none => none
  else none

/-- Appends a value. The given list never changes; without permission to grow its buffer the
elements are copied. -/
def append (heap : ListHeap) (lease : Lease) (list : Handle) (value : Value) :
    Handle × ListHeap :=
  match heap.growable? lease list with
  | some (base, buffer, length, start, stop) =>
    let grown : Slot := ⟨.base (buffer.push value) length, lease.epoch⟩
    let heap := { heap with slots := heap.slots.setIfInBounds base.index (some grown) }
    heap.alloc (.slice base start (stop + 1))
  | none => heap.ofList (heap.toList list ++ [value])

/-- The value at a position counted from zero, in a chain of heads with at most `depth` links. -/
def at? (heap : ListHeap) : Nat → Handle → Nat → Option Value
  | 0, _, _ => none
  | depth + 1, list, position =>
    match heap.node? list with
    | none => none
    | some (.base buffer length) => if position < length then buffer[position]? else none
    | some (.slice base start stop) =>
      if start + position < stop then (heap.buffer base)[start + position]? else none
    | some (.head value rest) =>
      match position with
      | 0 => some value
      | position + 1 => heap.at? depth rest position

/-- Positions count from one; outside of the list there is `undef`. -/
def nth (heap : ListHeap) (list : Handle) (position : Int64) : Value :=
  if position < 1 then .undefined
  else (heap.at? (heap.slots.size + 1) list (position.toInt.toNat - 1)).getD .undefined

/-- The first element, `undef` for the empty list. -/
def peek (heap : ListHeap) (list : Handle) : Value :=
  (heap.at? (heap.slots.size + 1) list 0).getD .undefined

def lengthWithin (heap : ListHeap) : Nat → Handle → Nat
  | 0, _ => 0
  | depth + 1, list =>
    match heap.node? list with
    | none => 0
    | some (.base _ length) => length
    | some (.slice _ start stop) => stop - start
    | some (.head _ rest) => heap.lengthWithin depth rest + 1

def length (heap : ListHeap) (list : Handle) : Nat := heap.lengthWithin (heap.slots.size + 1) list

def isEmpty (heap : ListHeap) (list : Handle) : Bool := heap.length list == 0

def isFlat (heap : ListHeap) (list : Handle) : Bool :=
  match heap.node? list with
  | some (.base buffer length) => buffer.size == length
  | _ => false

/-- A list with the same elements that sees the whole of its own buffer; the given one if it does.
-/
def flatten (heap : ListHeap) (list : Handle) : Handle × ListHeap :=
  if heap.isFlat list then (list, heap) else heap.ofList (heap.toList list)

def liveNodes (heap : ListHeap) : Nat := heap.slots.size - heap.free.length

end ListHeap

end AbstractStateMachine
