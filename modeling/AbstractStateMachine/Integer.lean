/-!
Operations on 64-bit integers beyond the wrapping arithmetic of `Int64`.
-/

namespace AbstractStateMachine.Integer

def inRange (n : Int) : Bool := Int64.minValue.toInt ≤ n && n ≤ Int64.maxValue.toInt

def ofInt? (n : Int) : Option Int64 := if inRange n then some (Int64.ofInt n) else none

def pred? (n : Int64) : Option Int64 := ofInt? (n.toInt - 1)

/-- The power of a base whose absolute value is at least two leaves the range before the
sixty-fourth, and the other bases have short cycles. -/
def powExact? (base : Int) (power : Nat) : Option Int :=
  if base == 0 then some (if power == 0 then 1 else 0)
  else if base == 1 then some 1
  else if base == -1 then some (if power % 2 == 0 then 1 else -1)
  else if power ≤ 64 then some (Int.pow base power)
  else none

/-- The exact power, if the exponent is a natural number below `2 ^ 32` and the power is in range.
-/
def pow? (base power : Int64) : Option Int64 :=
  if 0 ≤ power.toInt && power.toInt < 0x100000000 then
    (powExact? base.toInt power.toInt.toNat).bind ofInt?
  else none

def hex (n : Int64) : String :=
  let digits := String.ofList (Nat.toDigits 16 n.toInt.natAbs)
  if n < 0 then "-" ++ digits else digits

def digitsValue? (digits : List Char) : Option Nat :=
  if !digits.isEmpty && digits.all Char.isDigit then
    some (digits.foldl (fun value digit => 10 * value + (digit.toNat - '0'.toNat)) 0)
  else none

/-- An optional sign and decimal digits; out of range is no number. -/
def ofText? : List Char → Option Int64
  | '-' :: digits => (digitsValue? digits).bind fun value => ofInt? (-(value : Int))
  | '+' :: digits => (digitsValue? digits).bind fun value => ofInt? value
  | digits => (digitsValue? digits).bind fun value => ofInt? value

end AbstractStateMachine.Integer
