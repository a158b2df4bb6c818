import AbstractStateMachine.Binary64.Basic

/-!
Reading a floating point number: an optional sign, then decimal digits with an optional fraction and
exponent, or one of the words `inf`, `infinity`, `nan` in any case. The result is the number nearest
to the decimal.
-/

namespace AbstractStateMachine.Binary64

def splitSign : List Char → Bool × List Char
  | '-' :: rest => (true, rest)
  | '+' :: rest => (false, rest)
  | text => (false, text)

def splitDigits (text : List Char) : List Char × List Char :=
  (text.takeWhile Char.isDigit, text.dropWhile Char.isDigit)

def digitsValue (digits : List Char) : Nat :=
  digits.foldl (fun value digit => 10 * value + (digit.toNat - '0'.toNat)) 0

/-- The value of an exponent, whose further digits are left out once it has reached `2 ^ 16`. -/
def exponentValue (digits : List Char) : Nat :=
  digits.foldl
    (fun value digit => if value < 0x10000 then 10 * value + (digit.toNat - '0'.toNat) else value) 0

/-- The exponent part that may follow the digits; it has to use up the text. -/
def readExponent? : List Char → Option Int
  | [] => some 0
  | mark :: rest =>
    if mark == 'e' || mark == 'E' then
      let (negative, rest) := splitSign rest
      let (digits, rest) := splitDigits rest
      if digits.isEmpty || !rest.isEmpty then none
      else some (if negative then -(exponentValue digits : Int) else exponentValue digits)
    else none

/-- Digits before and after the point, and the exponent. -/
def readDecimal? (text : List Char) : Option (List Char × List Char × Int) :=
  let (whole, rest) := splitDigits text
  let (fraction, rest) :=
    match rest with
    | '.' :: rest => splitDigits rest
    | rest => ([], rest)
  if whole.isEmpty && fraction.isEmpty then none
  else (readExponent? rest).map fun power => (whole, fraction, power)

/-- The number nearest to `m * 10 ^ power`. Outside of four hundred decimal places the answer is
known without computing the power. -/
def nearest (negative : Bool) (m : Nat) (power : Int) : Binary64 :=
  if m = 0 then zero negative
  else
    let size := (Nat.toDigits 10 m).length + power
    if 400 < size then infinity negative
    else if size < -400 then zero negative
    else ofRatio negative (m * Nat.pow 10 power.toNat) (Nat.pow 10 (-power).toNat)

def ofText? (text : List Char) : Option Binary64 :=
  let (negative, body) := splitSign text
  let word := body.map Char.toLower
  if word == "inf".toList || word == "infinity".toList then some (infinity negative)
  else if word == "nan".toList then some (nan negative)
  else
    (readDecimal? body).map fun (whole, fraction, power) =>
      nearest negative (digitsValue (whole ++ fraction)) (power - fraction.length)

end AbstractStateMachine.Binary64
