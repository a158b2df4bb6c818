import AbstractStateMachine.Text.Ranges

/-!
Quoted text: a text between double quotes in which quotes, backslashes and every character without a
visible form of its own are escaped.
-/

namespace AbstractStateMachine.Text

def isHidden (c : Char) : Bool :=
  c.toNat < 0x20 || c.toNat == 0x7f || inTable hiddenTable c.toNat

def hexDigits (n : Nat) : List Char := Nat.toDigits 16 n

def escapeChar (c : Char) : List Char :=
  match c.toNat with
  | 0x22 => ['\\', '"']
  | 0x5c => ['\\', '\\']
  | 0x0a => ['\\', 'n']
  | 0x0d => ['\\', 'r']
  | 0x09 => ['\\', 't']
  | 0x00 => ['\\', '0']
  | code => if isHidden c then ['\\', 'u', '\x7b'] ++ hexDigits code ++ ['\x7d'] else [c]

def quoted (text : String) : String :=
  String.ofList ('"' :: text.toList.flatMap escapeChar ++ ['"'])

end AbstractStateMachine.Text
