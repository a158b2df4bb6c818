/-!
Floating point numbers in the IEEE 754 `binary64` format, kept as their bit pattern. Two numbers
with the same value can have different patterns (the two zeros) and a number need not equal itself
(NaN); equality and order therefore go through the numeric view `ordinal`, while argument keys use
the bits.
-/

namespace AbstractStateMachine

structure Binary64 where
  bits : UInt64
  deriving DecidableEq, Repr, Inhabited

namespace Binary64

def signBit : UInt64 := 0x8000000000000000

def isNegative (x : Binary64) : Bool := signBit ≤ x.bits

/-- The weight of the sign in a pattern, `2 ^ 63`. -/
def signWeight : Nat := 0x8000000000000000

/-- The weight of the exponent field in a pattern, `2 ^ 52`, which is also the least significand of
a normal number. -/
def exponentWeight : Nat := 0x10000000000000

/-- The pattern without its sign, which grows with the magnitude of the number. -/
def magnitudeBits (x : Binary64) : Nat := x.bits.toNat % signWeight

def exponentField (x : Binary64) : Nat := x.magnitudeBits / exponentWeight

def fractionField (x : Binary64) : Nat := x.magnitudeBits % exponentWeight

def infinityBits : Nat := 2047 * exponentWeight

def isNaN (x : Binary64) : Bool := infinityBits < x.magnitudeBits

def isInfinite (x : Binary64) : Bool := x.magnitudeBits == infinityBits

def isZero (x : Binary64) : Bool := x.magnitudeBits == 0

/-- Position on the line of all numbers in ascending order; both zeros stand at `0`. -/
def ordinal (x : Binary64) : Int :=
  if x.isNegative then -(x.magnitudeBits : Int) else x.magnitudeBits

/-- NaN is unordered. -/
def compare? (x y : Binary64) : Option Ordering :=
  if x.isNaN || y.isNaN then none else some (compare x.ordinal y.ordinal)

def equal (x y : Binary64) : Bool :=
  !x.isNaN && !y.isNaN && x.ordinal == y.ordinal

/-- A finite number is `significand * 2 ^ exponent` up to its sign. -/
def significand (x : Binary64) : Nat :=
  if x.exponentField = 0 then x.fractionField else x.fractionField + exponentWeight

def exponent (x : Binary64) : Int :=
  if x.exponentField = 0 then -1074 else (x.exponentField : Int) - 1075

def withSign (negative : Bool) (magnitude : Nat) : Binary64 :=
  ⟨UInt64.ofNat (if negative then magnitude + signWeight else magnitude)⟩

def zero (negative : Bool) : Binary64 := withSign negative 0

def infinity (negative : Bool) : Binary64 := withSign negative infinityBits

/-- The quiet NaN without payload. -/
def nan (negative : Bool) : Binary64 := withSign negative (infinityBits + exponentWeight / 2)

/-- The pattern of `m * 2 ^ q` for a normal significand `m` or the least exponent. -/
def encode (m : Nat) (q : Int) : Nat :=
  if m < exponentWeight then m else (q + 1075).toNat * exponentWeight + (m - exponentWeight)

/-- The quotient rounded to the nearest natural number, a tie going to the even one. -/
def roundQuotient (num den : Nat) : Nat :=
  let below := num / den
  let twice := 2 * (num % den)
  if twice < den || (twice == den && below % 2 == 0) then below else below + 1

/-- The exponent of the unit in which `num / den` has 53 binary digits, or of the least unit of all.
-/
def unitExponent (num den : Nat) : Int :=
  let estimate : Int := max (-1074) ((num.log2 : Int) - den.log2 - 53)
  if num <<< (-estimate).toNat < den <<< (estimate.toNat + 53) then estimate
  else estimate + 1

/-- The number nearest to `num / den`, the even one of two; infinity beyond the largest number. A
quotient that is rounded up to 54 digits carries into the exponent field. -/
def ofRatio (negative : Bool) (num den : Nat) : Binary64 :=
  if num = 0 then zero negative
  else
    let q := unitExponent num den
    let m := roundQuotient (num <<< (-q).toNat) (den <<< q.toNat)
    withSign negative (min (encode m q) infinityBits)

def toFloat (x : Binary64) : Float := Float.ofBits x.bits

def ofFloat (x : Float) : Binary64 := ⟨x.toBits⟩

/-- The NaN that an operation on `x` and `y` yields: an operand that is NaN already, else the NaN of
an invalid operation, whose sign is set. -/
def nanOf (x y : Binary64) : Binary64 :=
  if x.isNaN then x else if y.isNaN then y else nan true

def lift (operation : Float → Float → Float) (x y : Binary64) : Binary64 :=
  let result := operation x.toFloat y.toFloat
  if result.isNaN then nanOf x y else ofFloat result

def add (x y : Binary64) : Binary64 := lift (· + ·) x y

def sub (x y : Binary64) : Binary64 := lift (· - ·) x y

def mul (x y : Binary64) : Binary64 := lift (· * ·) x y

def div (x y : Binary64) : Binary64 := lift (· / ·) x y

/-- Whether the number is an odd integer; one of `2 ^ 53` or more is even. -/
def isOddInteger (x : Binary64) : Bool :=
  let unit := 1 <<< (-x.exponent).toNat
  x.exponent ≤ 0 && x.significand % unit == 0 && x.significand / unit % 2 == 1

def magnitude (x : Binary64) : Binary64 := withSign false x.magnitudeBits

/-- An odd power of NaN has its sign clear; every other power that is NaN follows `nanOf`. -/
def pow (x y : Binary64) : Binary64 :=
  if x.isNaN && y.isOddInteger then x.magnitude else lift Float.pow x y

/-- What is left of `x` after taking away `y` as often as it fits; the result has the sign of `x`.
It is always a `binary64` number, so nothing is rounded. -/
def remainder (x y : Binary64) : Binary64 :=
  if x.isNaN || y.isNaN || x.isInfinite || y.isZero then nanOf x y
  else if y.isInfinite then x
  else
    let q := min x.exponent y.exponent
    let dividend := x.significand <<< (x.exponent - q).toNat
    let divisor := y.significand <<< (y.exponent - q).toNat
    ofRatio x.isNegative ((dividend % divisor) <<< q.toNat) (1 <<< (-q).toNat)

/-- The integer part, held at the ends of the 64-bit range; `0` for NaN. -/
def toInt64 (x : Binary64) : Int64 :=
  if x.isNaN then 0
  else
    let whole : Nat :=
      if x.isInfinite then 2 * signWeight
      else if 0 ≤ x.exponent then x.significand <<< x.exponent.toNat
      else x.significand >>> (-x.exponent).toNat
    let signed : Int := if x.isNegative then -(whole : Int) else whole
    Int64.ofInt (max Int64.minValue.toInt (min Int64.maxValue.toInt signed))

def ofInt64 (value : Int64) : Binary64 := ofRatio (value < 0) value.toInt.natAbs 1

end Binary64

end AbstractStateMachine
