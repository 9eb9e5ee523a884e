/-!
# Numerals

Decimal numbers are written by `decimal` and read by `readDecimal?`, which takes any number of
digits and nothing else. `upperHex` writes offsets.
-/

namespace BytecodeAssembler.Text

/-- A number in decimal digits. -/
def decimal (n : Nat) : String :=
  String.ofList (Nat.toDigits 10 n)

/-- A number in upper-case hexadecimal digits. -/
def upperHex (n : Nat) : String :=
  String.ofList ((Nat.toDigits 16 n).map Char.toUpper)

/-- A decimal digit of ASCII. -/
def isDigit (c : Char) : Bool :=
  '0' ≤ c && c ≤ '9'

/-- The value of a decimal digit. -/
def digitValue (c : Char) : Nat :=
  c.toNat - '0'.toNat

/-- The number that decimal digits stand for. -/
def decimalValue (digits : List Nat) : Nat :=
  digits.foldl (fun n d => n * 10 + d) 0

/-- The digits of a decimal numeral: one or more digits and nothing else. -/
def decimalDigits? (cs : List Char) : Option (List Nat) :=
  if cs ≠ [] ∧ cs.all isDigit then some (cs.map digitValue) else none

/-- The number that a decimal numeral stands for. -/
def readDecimal? (cs : List Char) : Option Nat :=
  (decimalDigits? cs).map decimalValue

end BytecodeAssembler.Text
