import AbstractStateMachine.ListHeap.Basic

/-!
Keys under which locations are filed. An integer argument is its own key and `undef` has a fixed
one; any other argument is represented by the digest of a flat sequence of tokens, in which nested
lists are not delimited. Different arguments may share a key, so users of keys also compare
arguments.
-/

namespace AbstractStateMachine

/-- One token for every value met while walking through an argument. -/
inductive Token where
  | int (value : Int64)
  | float (bits : UInt64)
  | bool (value : Bool)
  | str (value : String)
  | undefined
  | rule (rule : RuleId)
  | symbol (id : Nat)
  /-- The elements of the list follow, without an end mark. -/
  | list
  deriving DecidableEq, Repr

inductive KeyPart where
  | word (bits : UInt64)
  | tokens (sequence : List Token)
  deriving DecidableEq, Repr

/-- How token sequences are condensed into key parts; nothing depends on the choice but which
different arguments share a key. -/
abbrev Digest := List Token → KeyPart

abbrev ArgKey := List KeyPart

def undefWord : UInt64 := 0x8000000000000001

namespace ListHeap

/-- The tokens of a value with lists nested at most `depth` deep. -/
def tokensWithin (heap : ListHeap) : Nat → Value → List Token
  | _, .int value => [.int value]
  | _, .float value => [.float value.bits]
  | _, .bool value => [.bool value]
  | _, .str value => [.str value]
  | _, .undefined => [.undefined]
  | _, .rule id => [.rule id]
  | _, .symbol id => [.symbol id]
  | _, .verdict id _ _ _ => [.symbol id]
  | 0, .list _ => [.list]
  | depth + 1, .list handle =>
    .list :: (heap.toList handle).flatMap (heap.tokensWithin depth)

/-- Lists cannot be nested deeper than the heap has nodes. -/
def tokens (heap : ListHeap) (value : Value) : List Token :=
  heap.tokensWithin (heap.slots.size + 1) value

def keyPart (heap : ListHeap) (digest : Digest) : Value → KeyPart
  | .int value => .word value.toUInt64
  | .undefined => .word undefWord
  | other => digest (heap.tokens other)

def argKey (heap : ListHeap) (digest : Digest) (args : List Value) : ArgKey :=
  args.map (heap.keyPart digest)

end ListHeap

end AbstractStateMachine
