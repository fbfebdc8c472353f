import ControlFlow.Document.Fault
import ControlFlow.Text.Decimal
import ControlFlow.Text.Hex

/-! # Scanning the words of a document

Each scanner takes the characters that are left and returns what it read with the rest, or the
first fault. Scanners of values start at the first character of the value.
-/

namespace ControlFlow

/-- Reads a value off the front of a text. -/
abbrev Reader (α : Type) := List Char → Except ReadFault (α × List Char)

namespace Scan

def isBlank (c : Char) : Bool := c = ' ' ∨ c = '\n' ∨ c = '\t' ∨ c = '\r'

/-- The text from its first character that is no blank. -/
def skipBlanks (input : List Char) : List Char := input.dropWhile isBlank

/-- Pass over the letters of a word. -/
def word : List Char → List Char → Except ReadFault (List Char)
  | [], input => .ok input
  | _ :: _, [] => .error .truncated
  | letter :: letters, c :: rest => if c = letter then word letters rest else .error .malformed

/-! ## Numbers -/

/-- The largest significand that a number in a document has. -/
def maxSignificand : Nat := Nat.pow 2 64 - 1

/-- A number as far as documents tell numbers apart. -/
inductive Numeral where
  /-- A whole number that fits 64 bits, signed if it is negative. -/
  | integer (n : Int)
  /-- Any other number. -/
  | fraction

/-- Extend a significand by digits while it fits; the digits that are left over are counted. -/
def extendSignificand : Nat → List Char → Nat × Nat
  | value, [] => (value, 0)
  | value, c :: rest =>
      if 10 * value + Text.digitValue c ≤ maxSignificand then
        extendSignificand (10 * value + Text.digitValue c) rest
      else (value, rest.length + 1)

/-- The nearest number of at most 53 binary digits before its zeros; ties go to the even one. -/
def roundToDouble (n : Nat) : Nat :=
  let shift := n.log2 + 1 - 53
  let unit := Nat.pow 2 shift
  let kept := n / unit
  let lost := n % unit
  if 2 * lost > unit ∨ (2 * lost = unit ∧ kept % 2 = 1) then (kept + 1) * unit else kept * unit

/-- Whether a significand times a power of ten is beyond the largest double. -/
def overflows (significand : Nat) (exponent : Int) : Bool :=
  significand ≠ 0 ∧ 0 ≤ exponent ∧
    (308 < exponent ∨
      Nat.pow 2 1024 - Nat.pow 2 970 ≤
        roundToDouble significand * roundToDouble (Nat.pow 10 exponent.toNat))

/-- A number that is no 64-bit integer, unless it is too large for a double. -/
def fractionOr (significand : Nat) (exponent : Int) (rest : List Char) :
    Except ReadFault (Numeral × List Char) :=
  if overflows significand exponent then .error .malformed else .ok (.fraction, rest)

/-- The digits after the mark of an exponent, with their sign. -/
def exponentDigits : List Char → Bool × List Char
  | '+' :: rest => (false, rest)
  | '-' :: rest => (true, rest)
  | rest => (false, rest)

/-- The rest of a number after the mark of an exponent. -/
def afterExponentMark (significand : Nat) (exponent : Int) (input : List Char) :
    Except ReadFault (Numeral × List Char) :=
  let (negative, rest) := exponentDigits input
  match rest with
  | [] => .error .truncated
  | c :: _ =>
      if c.isDigit then
        let e : Int := Text.digitsValue 0 (rest.takeWhile Char.isDigit)
        fractionOr significand (if negative then exponent - e else exponent + e)
          (rest.dropWhile Char.isDigit)
      else .error .malformed

/-- The rest of a number after its decimal point. -/
def afterPoint (significand : Nat) (exponent : Int) (input : List Char) :
    Except ReadFault (Numeral × List Char) :=
  let places := input.takeWhile Char.isDigit
  let rest := input.dropWhile Char.isDigit
  let (extended, left) := extendSignificand significand places
  let exponent := exponent - (places.length - left : Nat)
  match places, rest with
  | [], [] => .error .truncated
  | [], _ :: _ => .error .malformed
  | _ :: _, 'e' :: rest | _ :: _, 'E' :: rest => afterExponentMark extended exponent rest
  | _ :: _, rest => fractionOr extended exponent rest

/-- A whole number that has been read to its end. -/
def wholeNumber (negative : Bool) (significand left : Nat) (rest : List Char) :
    Except ReadFault (Numeral × List Char) :=
  if left = 0 ∧ negative = false then .ok (.integer significand, rest)
  else if left = 0 ∧ 0 < significand ∧ significand ≤ Nat.pow 2 63 then
    .ok (.integer (-significand), rest)
  else fractionOr significand left rest

/-- The rest of a number after the digits before its decimal point. -/
def afterWhole (negative : Bool) (whole rest : List Char) :
    Except ReadFault (Numeral × List Char) :=
  let (significand, left) := extendSignificand 0 whole
  match rest with
  | '.' :: rest => afterPoint significand left rest
  | 'e' :: rest | 'E' :: rest => afterExponentMark significand left rest
  | rest => wholeNumber negative significand left rest

/-- A number after its sign: no digit follows a leading zero. -/
def magnitude (negative : Bool) : Reader Numeral
  | [] => .error .truncated
  | '0' :: rest =>
      match rest with
      | c :: _ => if c.isDigit then .error .malformed else afterWhole negative ['0'] rest
      | [] => afterWhole negative ['0'] []
  | c :: rest =>
      if c.isDigit then
        afterWhole negative (c :: rest.takeWhile Char.isDigit) (rest.dropWhile Char.isDigit)
      else .error .malformed

def numeral : Reader Numeral
  | '-' :: rest => magnitude true rest
  | input => magnitude false input

/-! ## Texts -/

/-- The character of a short escape. -/
def shortEscape? (c : Char) : Option Char :=
  if c = '"' then some '"'
  else if c = '\\' then some '\\'
  else if c = '/' then some '/'
  else if c = 'b' then some '\x08'
  else if c = 'f' then some '\x0c'
  else if c = 'n' then some '\n'
  else if c = 'r' then some '\r'
  else if c = 't' then some '\t'
  else none

/-- The value of four hexadecimal digits. -/
def unit? (a b c d : Char) : Option Nat := do
  let a ← Text.hexValue? a
  let b ← Text.hexValue? b
  let c ← Text.hexValue? c
  let d ← Text.hexValue? d
  return ((a * 16 + b) * 16 + c) * 16 + d

/-- What is wrong where four hexadecimal digits are asked for and fewer characters are left:
four bytes may still be there. -/
def shortUnitFault (rest : List Char) : ReadFault :=
  if (String.ofList rest).utf8ByteSize < 4 then .truncated else .malformed

/-- What is wrong after a leading surrogate that no escape with four digits follows. -/
def unpairedFault : List Char → ReadFault
  | [] | ['\\'] => .truncated
  | '\\' :: 'u' :: rest => shortUnitFault rest
  | _ => .malformed

/-- Put a character before a text that was read. -/
def consChar (c : Char) :
    Except ReadFault (List Char × List Char) → Except ReadFault (List Char × List Char)
  | .ok (cs, rest) => .ok (c :: cs, rest)
  | .error fault => .error fault

/-- The characters of a text up to its closing quote. -/
def text : List Char → Except ReadFault (List Char × List Char)
  | [] => .error .truncated
  | '"' :: rest => .ok ([], rest)
  | '\\' :: [] => .error .truncated
  | '\\' :: 'u' :: a :: b :: c :: d :: rest =>
      match unit? a b c d with
      | none => .error .malformed
      | some high =>
          if 0xDC00 ≤ high ∧ high ≤ 0xDFFF then .error .malformed
          else if 0xD800 ≤ high ∧ high ≤ 0xDBFF then
            match rest with
            | '\\' :: 'u' :: e :: f :: g :: h :: rest =>
                match unit? e f g h with
                | none => .error .malformed
                | some low =>
                    if 0xDC00 ≤ low ∧ low ≤ 0xDFFF then
                      consChar (Char.ofNat (0x10000 + (high - 0xD800) * 0x400 + (low - 0xDC00)))
                        (text rest)
                    else .error .malformed
            | rest => .error (unpairedFault rest)
          else consChar (Char.ofNat high) (text rest)
  | '\\' :: 'u' :: rest => .error (shortUnitFault rest)
  | '\\' :: c :: rest =>
      match shortEscape? c with
      | some escaped => consChar escaped (text rest)
      | none => .error .malformed
  | c :: rest => if c.toNat < 32 then .error .malformed else consChar c (text rest)

/-! ## Skipping -/

/-- Pass over a text to its closing quote. Surrogates need no partner here. -/
def skipText : List Char → Except ReadFault (List Char)
  | [] => .error .truncated
  | '"' :: rest => .ok rest
  | '\\' :: [] => .error .truncated
  | '\\' :: 'u' :: a :: b :: c :: d :: rest =>
      match unit? a b c d with
      | none => .error .malformed
      | some _ => skipText rest
  | '\\' :: 'u' :: rest => .error (shortUnitFault rest)
  | '\\' :: c :: rest =>
      match shortEscape? c with
      | some _ => skipText rest
      | none => .error .malformed
  | c :: rest => if c.toNat < 32 then .error .malformed else skipText rest

def skipDigits : List Char → Except ReadFault (List Char)
  | c :: rest => if c.isDigit then .ok (rest.dropWhile Char.isDigit) else .error .malformed
  | [] => .error .malformed

def skipExponent : List Char → Except ReadFault (List Char)
  | 'e' :: rest | 'E' :: rest => skipDigits (exponentDigits rest).2
  | rest => .ok rest

/-- Pass over a number after its sign. Its end may come at any place where it is no number. -/
def skipMagnitude (input : List Char) : Except ReadFault (List Char) := do
  let rest ←
    match input with
    | '0' :: c :: rest => if c.isDigit then .error .malformed else .ok (c :: rest)
    | input => skipDigits input
  match rest with
  | '.' :: rest => do skipExponent (← skipDigits rest)
  | rest => skipExponent rest

inductive Bracket where
  | array
  | object

def Bracket.close : Bracket → Char
  | .array => ']'
  | .object => '\x7d'

/-- Pass over the name of a member and its colon. -/
def skipName (input : List Char) : Except ReadFault (List Char) :=
  match skipBlanks input with
  | [] => .error .truncated
  | '"' :: rest => do
      match skipBlanks (← skipText rest) with
      | [] => .error .truncated
      | ':' :: rest => .ok rest
      | _ => .error .malformed
  | _ => .error .malformed

mutual

/-- Pass over a value inside open brackets, and on to the end of the outermost bracket. -/
def skipInside : Nat → List Bracket → List Char → Except ReadFault (List Char)
  | 0, _, _ => .error .truncated
  | fuel + 1, stack, input =>
      match skipBlanks input with
      | [] => .error .truncated
      | 'n' :: rest => do skipAfter fuel stack (← word ['u', 'l', 'l'] rest)
      | 't' :: rest => do skipAfter fuel stack (← word ['r', 'u', 'e'] rest)
      | 'f' :: rest => do skipAfter fuel stack (← word ['a', 'l', 's', 'e'] rest)
      | '-' :: rest => do skipAfter fuel stack (← skipMagnitude rest)
      | '"' :: rest => do skipAfter fuel stack (← skipText rest)
      | '[' :: rest => skipFirst fuel .array stack rest
      | '\x7b' :: rest => skipFirst fuel .object stack rest
      | c :: rest =>
          if c.isDigit then do skipAfter fuel stack (← skipMagnitude (c :: rest))
          else .error .malformed

/-- Go on after an opening bracket. -/
def skipFirst : Nat → Bracket → List Bracket → List Char → Except ReadFault (List Char)
  | 0, _, _, _ => .error .truncated
  | fuel + 1, bracket, stack, input =>
      match skipBlanks input with
      | [] => .error .truncated
      | c :: rest =>
          if c = bracket.close then skipAfter fuel stack rest
          else
            match bracket with
            | .array => skipInside fuel (.array :: stack) (c :: rest)
            | .object => do skipInside fuel (.object :: stack) (← skipName (c :: rest))

/-- Go on after a value. -/
def skipAfter : Nat → List Bracket → List Char → Except ReadFault (List Char)
  | _, [], input => .ok input
  | 0, _ :: _, _ => .error .truncated
  | fuel + 1, bracket :: stack, input =>
      match skipBlanks input with
      | [] => .error .truncated
      | c :: rest =>
          if c = bracket.close then skipAfter fuel stack rest
          else if c = ',' then
            match bracket with
            | .array => skipInside fuel (.array :: stack) rest
            | .object => do skipInside fuel (.object :: stack) (← skipName rest)
          else .error .malformed

end

/-- Pass over one value of any kind and depth, given a bound for the number of characters. Of two
steps of the walk one takes a character. -/
def skipValue (bound : Nat) (input : List Char) : Except ReadFault (List Char) :=
  skipInside (2 * bound + 2) [] input

end Scan

end ControlFlow
