/-! # Decimal digits

Whole numbers are written without leading zeros, the negative ones after a minus sign.
-/

namespace ControlFlow.Text

def digits (n : Nat) : List Char := Nat.toDigits 10 n

def digitValue (c : Char) : Nat := c.toNat - 48

/-- The number that a list of digits stands for, after a value already read. -/
def digitsValue (start : Nat) (cs : List Char) : Nat :=
  cs.foldl (fun value c => 10 * value + digitValue c) start

def signed : Int → List Char
  | .ofNat n => digits n
  | .negSucc n => '-' :: digits (n + 1)

def decimal (n : Nat) : String := String.ofList (digits n)

end ControlFlow.Text
