import ControlFlow.Text.Decimal
import ControlFlow.Text.Hex

/-! # Documents

A document is a tree of JSON values; its members keep their order. One printer serves every
layout: a layout only decides which blanks stand before an item and after a colon.
-/

namespace ControlFlow

/-- A JSON value. Numbers are whole. -/
inductive Document where
  | null
  | flag (value : Bool)
  | number (value : Int)
  | text (value : String)
  | array (items : List Document)
  | object (members : List (String × Document))

namespace Document

/-- The blanks that a printed document has between its parts. -/
structure Layout where
  /-- Before an item, a member or a closing bracket at a depth. -/
  gap : Nat → List Char
  /-- Between a colon and the value of a member. -/
  afterColon : List Char

def compact : Layout := ⟨fun _ => [], []⟩

/-- Each item on a line of its own, two blanks further in than its container. -/
def indented : Layout := ⟨fun depth => '\n' :: List.replicate (2 * depth) ' ', [' ']⟩

/-- One character of a printed text: quotes, backslashes and control characters are escaped. -/
def escapedChar (c : Char) : List Char :=
  if c = '"' then ['\\', '"']
  else if c = '\\' then ['\\', '\\']
  else if c = '\x08' then ['\\', 'b']
  else if c = '\x0c' then ['\\', 'f']
  else if c = '\n' then ['\\', 'n']
  else if c = '\r' then ['\\', 'r']
  else if c = '\t' then ['\\', 't']
  else if c.toNat < 32 then '\\' :: 'u' :: '0' :: '0' :: Text.hexPair c.toNat
  else [c]

/-- A text between double quotes. -/
def printText (s : String) : List Char :=
  '"' :: s.toList.flatMap escapedChar ++ ['"']

mutual

/-- The characters of a document that stands at a depth. -/
def print (l : Layout) (depth : Nat) : Document → List Char
  | null => ['n', 'u', 'l', 'l']
  | flag true => ['t', 'r', 'u', 'e']
  | flag false => ['f', 'a', 'l', 's', 'e']
  | number n => Text.signed n
  | text s => printText s
  | array [] => ['[', ']']
  | array (first :: rest) =>
      '[' :: l.gap (depth + 1) ++ print l (depth + 1) first ++ printItems l (depth + 1) rest ++
        l.gap depth ++ [']']
  | object [] => ['\x7b', '\x7d']
  | object ((name, value) :: rest) =>
      '\x7b' :: l.gap (depth + 1) ++ printText name ++ ':' :: l.afterColon ++
        print l (depth + 1) value ++ printMembers l (depth + 1) rest ++ l.gap depth ++ ['\x7d']

/-- The items of an array after its first, each after a comma. -/
def printItems (l : Layout) (depth : Nat) : List Document → List Char
  | [] => []
  | d :: rest => ',' :: l.gap depth ++ print l depth d ++ printItems l depth rest

/-- The members of an object after its first, each after a comma. -/
def printMembers (l : Layout) (depth : Nat) : List (String × Document) → List Char
  | [] => []
  | (name, value) :: rest =>
      ',' :: l.gap depth ++ printText name ++ ':' :: l.afterColon ++ print l depth value ++
        printMembers l depth rest

end

def render (l : Layout) (d : Document) : String := String.ofList (d.print l 0)

end Document

end ControlFlow
