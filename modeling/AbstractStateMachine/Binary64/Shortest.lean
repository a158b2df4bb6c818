import AbstractStateMachine.Binary64.Basic

/-!
The shortest decimal that reads back as a given number. A decimal reads back as `m * 2 ^ q` when it
lies in the rounding interval of that number; the search looks at ever finer decimal grids and
takes the first grid with a point in the interval, the nearer one of two.
-/

namespace AbstractStateMachine.Binary64

/-- The decimal `digits * 10 ^ exponent`. -/
structure Decimal where
  digits : Nat
  exponent : Int
  deriving DecidableEq, Repr

/-- Numerator and denominator of `base ^ power`. -/
def powRatio (base : Nat) (power : Int) : Nat × Nat :=
  (Nat.pow base power.toNat, Nat.pow base (-power).toNat)

/-- The reals that round to `centre * 2 ^ exponent`, as `low` and `high` in the same unit. -/
structure RoundingInterval where
  low : Nat
  centre : Nat
  high : Nat
  closed : Bool
  exponent : Int

/-- Below a power of two the neighbouring number is only half as far away. -/
def roundingInterval (x : Binary64) : RoundingInterval :=
  let m := x.significand
  let near := x.fractionField == 0 && 1 < x.exponentField
  { low := if near then 4 * m - 1 else 4 * m - 2
    centre := 4 * m
    high := 4 * m + 2
    closed := m % 2 == 0
    exponent := x.exponent - 2 }

/-- The two neighbours of the number on the grid of multiples of `10 ^ power` that lie in the
interval, nearest first, a tie going up. -/
def RoundingInterval.gridPoint? (interval : RoundingInterval) (power : Int) : Option Nat :=
  let (up, down) := powRatio 2 interval.exponent
  let (tenUp, tenDown) := powRatio 10 power
  let unit := tenUp * down
  let scale (part : Nat) : Nat := part * up * tenDown
  let below := scale interval.centre / unit
  let contains (point : Nat) : Bool :=
    if interval.closed then
      scale interval.low ≤ point * unit && point * unit ≤ scale interval.high
    else scale interval.low < point * unit && point * unit < scale interval.high
  let above := below + 1
  let lowerHit := 0 < below && contains below
  let upperHit := contains above
  if lowerHit && upperHit then
    if 2 * scale interval.centre < (below + above) * unit then some below else some above
  else if lowerHit then some below
  else if upperHit then some above
  else none

/-- The least `p` among a few candidates with `centre * 2 ^ exponent < 10 ^ p`. -/
def RoundingInterval.decimalSize (interval : RoundingInterval) : Int :=
  let estimate : Int := Int.fdiv (((interval.centre.log2 : Int) + interval.exponent) * 30103) 100000
  let (up, down) := powRatio 2 interval.exponent
  let fits (p : Int) : Bool :=
    let (tenUp, tenDown) := powRatio 10 p
    interval.centre * up * tenDown < tenUp * down
  if fits (estimate - 1) then estimate - 1
  else if fits estimate then estimate
  else if fits (estimate + 1) then estimate + 1
  else estimate + 2

def stripZeros : Nat → Decimal → Decimal
  | 0, decimal => decimal
  | rounds + 1, decimal =>
    if decimal.digits % 10 = 0 then stripZeros rounds ⟨decimal.digits / 10, decimal.exponent + 1⟩
    else decimal

/-- Seventeen digits always suffice for a finite number. -/
def shortest (x : Binary64) : Decimal :=
  let interval := x.roundingInterval
  let size := interval.decimalSize
  let attempt (count : Nat) : Option Decimal :=
    (interval.gridPoint? (size - count)).map fun point => stripZeros 17 ⟨point, size - count⟩
  ((List.range 17).findSome? fun n => attempt (n + 1)).getD ⟨0, 0⟩

end AbstractStateMachine.Binary64
