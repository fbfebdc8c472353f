import ControlFlow.Text.Hex

/-! # Texts inside double quotes of a drawing

Quotes, backslashes and line breaks are written as short escapes, and the other control
characters by their two hexadecimal digits; all else stands for itself.
-/

namespace ControlFlow.Escaped

/-- Whether a character controls the output instead of being shown. -/
def isControl (c : Char) : Bool := c.toNat < 0x20 ∨ (0x7F ≤ c.toNat ∧ c.toNat < 0xA0)

/-- One character between double quotes. -/
def char (c : Char) : List Char :=
  if c = '"' then ['\\', '"']
  else if c = '\\' then ['\\', '\\']
  else if c = '\n' then ['\\', 'n']
  else if c = '\t' then ['\\', 't']
  else if c = '\r' then ['\\', 'r']
  else if isControl c then '\\' :: 'x' :: Text.hexPair c.toNat
  else [c]

def chars (cs : List Char) : List Char := cs.flatMap char

def text (s : String) : String := String.ofList (chars s.toList)

end ControlFlow.Escaped
