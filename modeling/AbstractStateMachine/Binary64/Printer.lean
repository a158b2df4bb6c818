import AbstractStateMachine.Binary64.Shortest

/-!
The text of a floating point number: its shortest digits, positional from `0.0001` up to below
`10 ^ 16`, in scientific form elsewhere.
-/

namespace AbstractStateMachine.Binary64

structure TextFormat where
  /-- Exponents of the leading digit that are written positionally. -/
  least : Int
  greatest : Int
  nan : String
  infinity : String

def textFormat : TextFormat :=
  { least := -4, greatest := 15, nan := "NaN", infinity := "inf" }

/-- At least one digit stands after the point. -/
def positional (digits : List Char) (exponent : Int) : List Char :=
  let size := digits.length + exponent
  if size ≤ 0 then
    '0' :: '.' :: List.replicate (-size).toNat '0' ++ digits
  else
    let padded := digits ++ List.replicate exponent.toNat '0'
    let fraction := padded.drop size.toNat
    padded.take size.toNat ++ '.' :: (if fraction.isEmpty then ['0'] else fraction)

def scientific (digits : List Char) (leading : Int) : List Char :=
  let mantissa :=
    match digits with
    | first :: second :: rest => first :: '.' :: second :: rest
    | short => short
  mantissa ++ 'e' :: (toString leading).toList

def unsignedText (x : Binary64) : List Char :=
  if x.isZero then ['0', '.', '0']
  else if x.isInfinite then textFormat.infinity.toList
  else
    let decimal := x.shortest
    let digits := Nat.toDigits 10 decimal.digits
    let leading := digits.length + decimal.exponent - 1
    if textFormat.least ≤ leading ∧ leading ≤ textFormat.greatest then
      positional digits decimal.exponent
    else scientific digits leading

def text (x : Binary64) : String :=
  if x.isNaN then textFormat.nan
  else String.ofList ((if x.isNegative then ['-'] else []) ++ x.unsignedText)

end AbstractStateMachine.Binary64
