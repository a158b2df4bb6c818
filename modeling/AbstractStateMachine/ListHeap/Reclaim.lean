import AbstractStateMachine.ListHeap.Basic

/-!
Reclaiming the nodes that no root reaches. Reachability follows the base of a slice, the value and
the rest of a head, and all elements of a buffer, seen or not.
-/

namespace AbstractStateMachine.ListHeap

def handles (values : List Value) : List Handle := values.filterMap Value.list?

def Node.successors : Node → List Handle
  | .base buffer _ => handles buffer.toList
  | .slice parent _ _ => [parent]
  | .head value rest => handles [value] ++ [rest]

def successors (heap : ListHeap) (handle : Handle) : List Handle :=
  ((heap.node? handle).map Node.successors).getD []

/-- Marks what the handles of the work list reach. Every round takes one handle off the work list,
and only the first visit of a node adds any. -/
def markLoop (heap : ListHeap) : Nat → List Handle → Array Bool → Array Bool
  | 0, _, marks => marks
  | _, [], marks => marks
  | rounds + 1, handle :: rest, marks =>
    if marks[handle.index]? = some false ∧ (heap.slot? handle).isSome then
      heap.markLoop rounds (heap.successors handle ++ rest)
        (marks.setIfInBounds handle.index true)
    else heap.markLoop rounds rest marks

def edgeCount (heap : ListHeap) : Nat :=
  (heap.slots.toList.filterMap id).foldr
    (fun slot total => slot.node.successors.length + total) 0

def reachable (heap : ListHeap) (roots : List Value) : Array Bool :=
  let work := handles roots
  heap.markLoop (work.length + heap.edgeCount) work (Array.replicate heap.slots.size false)

def isMarked (marks : Array Bool) (index : Nat) : Bool := marks.getD index false

/-- Frees every node that the roots do not reach. -/
def reclaim (heap : ListHeap) (roots : List Value) : ListHeap :=
  let marks := heap.reachable roots
  let slots := heap.slots.mapIdx fun index slot => if isMarked marks index then slot else none
  let freed := (List.range heap.slots.size).filter fun index =>
    !isMarked marks index && (heap.slots[index]?.join).isSome
  { heap with slots, free := freed.reverse ++ heap.free }

end AbstractStateMachine.ListHeap
