import AbstractStateMachine.Integer
import AbstractStateMachine.Value.Basic

/-!
Conditions on symbols. Comparisons with an integer constant are brought into a normal form with the
symbol on the left, and a candidate can be decided from conditions that are known to hold.
-/

namespace AbstractStateMachine

inductive Verdict where
  | holds | fails | unknown
  deriving DecidableEq, Repr

namespace Condition

/-- Moves a symbol to the left. The constants that have no predecessor stay where they are. -/
def normalize (cond : Condition) : Condition :=
  if cond.lhs.isSymbolic || !cond.rhs.isSymbolic then cond
  else
    match cond.op, cond.lhs.int?.bind Integer.pred? with
    | .eq, _ => ⟨cond.rhs, .eq, cond.lhs⟩
    | .ne, _ => ⟨cond.rhs, .ne, cond.lhs⟩
    | .le, some bound => ⟨cond.rhs, .gt, .int bound⟩
    | .gt, some bound => ⟨cond.rhs, .le, .int bound⟩
    | _, none => cond

def less (lhs rhs : Value) : Condition :=
  match rhs.int?.bind Integer.pred? with
  | some bound => ⟨lhs, .le, .int bound⟩
  | none => ⟨rhs, .gt, lhs⟩

def greaterEq (lhs rhs : Value) : Condition :=
  match rhs.int?.bind Integer.pred? with
  | some bound => ⟨lhs, .gt, .int bound⟩
  | none => ⟨rhs, .le, lhs⟩

/-- The condition a comparison operator states; `none` for any other operator. -/
def ofComparison? (op : BinaryOp) (lhs rhs : Value) : Option Condition :=
  match op with
  | .eq => some (normalize ⟨lhs, .eq, rhs⟩)
  | .ne => some (normalize ⟨lhs, .ne, rhs⟩)
  | .le => some (normalize ⟨lhs, .le, rhs⟩)
  | .gt => some (normalize ⟨lhs, .gt, rhs⟩)
  | .lt => some (normalize (less lhs rhs))
  | .ge => some (normalize (greaterEq lhs rhs))
  | _ => none

/-- The symbol and the integer of a condition that compares the two. -/
def bound? (cond : Condition) : Option (Nat × Int64) :=
  match cond.lhs.symbolId?, cond.rhs with
  | some id, .int constant => some (id, constant)
  | _, _ => none

def exactly (b : Bool) : Verdict := if b then .holds else .fails

def impliedIf (b : Bool) : Verdict := if b then .holds else .unknown

def refutedIf (b : Bool) : Verdict := if b then .fails else .unknown

/-- Decides `x candidate c` for an `x` of which `x known k` is known. -/
def decideBy (known : Comparison) (k : Int64) (candidate : Comparison) (c : Int64) : Verdict :=
  match known, candidate with
  | .eq, .eq => exactly (k == c)
  | .eq, .ne => exactly (k != c)
  | .eq, .le => exactly (k ≤ c)
  | .eq, .gt => exactly (c < k)
  | .ne, .eq => refutedIf (k == c)
  | .ne, .ne => impliedIf (k == c)
  | .ne, .le => .unknown
  | .ne, .gt => .unknown
  | .le, .eq => refutedIf (k < c)
  | .le, .ne => impliedIf (k < c)
  | .le, .le => impliedIf (c ≤ k)
  | .le, .gt => refutedIf (k ≤ c)
  | .gt, .eq => refutedIf (c ≤ k)
  | .gt, .ne => impliedIf (c ≤ k)
  | .gt, .le => refutedIf (c ≤ k)
  | .gt, .gt => impliedIf (c ≤ k)

/-- Decides a candidate from the first known condition on the same symbol that settles it. -/
def checkBound (symbol : Nat) (op : Comparison) (constant : Int64) : List Condition → Verdict
  | [] => .unknown
  | known :: rest =>
    match known.bound? with
    | some (other, k) =>
      if other = symbol then
        match decideBy known.op k op constant with
        | .unknown => checkBound symbol op constant rest
        | verdict => verdict
      else checkBound symbol op constant rest
    | none => checkBound symbol op constant rest

/-- Whether a candidate follows from the known conditions or contradicts them. Only conditions that
compare a symbol with an integer are looked at. -/
def check (known : List Condition) (candidate : Condition) : Verdict :=
  let candidate := candidate.normalize
  match candidate.bound? with
  | some (symbol, constant) => checkBound symbol candidate.op constant known
  | none => .unknown

/-- The condition that a symbol stands for; a symbol without one stands for its own truth. -/
def ofVerdict? : Value → Option Condition
  | .symbol id => some ⟨.symbol id, .eq, .bool true⟩
  | .verdict _ lhs op rhs => some ⟨lhs, op, rhs⟩
  | _ => none

def ofNegation? : Value → Option Condition
  | .symbol id => some ⟨.symbol id, .eq, .bool false⟩
  | .verdict _ lhs op rhs => some ⟨lhs, op.negate, rhs⟩
  | _ => none

end Condition

end AbstractStateMachine
