import AbstractStateMachine.ListHeap.Basic

/-!
Equality of values. Values of different kinds differ, floats compare by number, symbols by their
identity, and lists by their elements, whatever nodes represent them.
-/

namespace AbstractStateMachine

/-- Whether two lists have the same length and related elements. -/
def allPairs {α : Type} (related : α → α → Bool) : List α → List α → Bool
  | [], [] => true
  | x :: xs, y :: ys => related x y && allPairs related xs ys
  | _, _ => false

namespace ListHeap

/-- Equality that looks into lists nested at most `depth` deep. -/
def equalWithin (heap : ListHeap) : Nat → Value → Value → Bool
  | _, .int x, .int y => x == y
  | _, .float x, .float y => x.equal y
  | _, .bool x, .bool y => x == y
  | _, .str x, .str y => x == y
  | _, .undefined, .undefined => true
  | _, .rule x, .rule y => x == y
  | depth, .list x, .list y =>
    x == y ||
      match depth with
      | 0 => false
      | depth + 1 => allPairs (heap.equalWithin depth) (heap.toList x) (heap.toList y)
  | _, x, y =>
    match x.symbolId?, y.symbolId? with
    | some x, some y => x == y
    | _, _ => false

/-- Lists cannot be nested deeper than the heap has nodes. -/
def equal (heap : ListHeap) (x y : Value) : Bool := heap.equalWithin (heap.slots.size + 1) x y

/-- Whether two argument tuples denote the same location. -/
def sameArgs (heap : ListHeap) (xs ys : List Value) : Bool := allPairs heap.equal xs ys

end ListHeap

end AbstractStateMachine
