import AbstractStateMachine.Text.Ranges

/-!
The number of columns a character takes when a line of text is displayed.
-/

namespace AbstractStateMachine.Text

/-- The Khmer sign for "and so on", the one character that takes three columns. -/
def khmerBeyyal : Nat := 0x17d8

/-- Control characters and combining marks take no column, wide East Asian characters take two. -/
def columns (c : Char) : Nat :=
  let code := c.toNat
  if code < 0x20 then 0
  else if code < 0x7f then 1
  else if code < 0xa0 then 0
  else if inTable narrowTable code then 0
  else if inTable wideTable code then 2
  else if code = khmerBeyyal then 3
  else 1

end AbstractStateMachine.Text
