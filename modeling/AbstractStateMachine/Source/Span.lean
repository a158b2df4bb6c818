/-!
Ranges of the specification's source text, in bytes.
-/

namespace AbstractStateMachine

structure Span where
  start : Nat := 0
  stop : Nat := 0
  deriving DecidableEq, Repr, Inhabited

end AbstractStateMachine
