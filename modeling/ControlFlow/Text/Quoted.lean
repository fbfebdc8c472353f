import ControlFlow.Text.Hidden

/-! # Quoted texts

A string literal is displayed between double quotes. The quote, the backslash and the common
blanks are written as short escapes; every other character that would not be seen as itself is
written by its code point, as in `\u{301}`.
-/

namespace ControlFlow.Text

/-- The code point of a character in small hexadecimal digits, between braces. -/
def numbered (c : Char) : List Char :=
  '\\' :: 'u' :: '\x7b' :: Nat.toDigits 16 c.toNat ++ ['\x7d']

/-- One character of a quoted text. -/
def quotedChar (c : Char) : List Char :=
  if c = '\x00' then ['\\', '0']
  else if c = '\t' then ['\\', 't']
  else if c = '\r' then ['\\', 'r']
  else if c = '\n' then ['\\', 'n']
  else if c = '\\' then ['\\', '\\']
  else if c = '"' then ['\\', '"']
  else if isHidden c then numbered c
  else [c]

/-- A text between double quotes. -/
def quoted (text : String) : String :=
  String.ofList ('"' :: text.toList.flatMap quotedChar ++ ['"'])

end ControlFlow.Text
