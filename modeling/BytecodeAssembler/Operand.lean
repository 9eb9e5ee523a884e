import BytecodeAssembler.Bytes
import BytecodeAssembler.Fault
import BytecodeAssembler.Instr

/-!
# Push operands

An `Operand` is a push operand before it is encoded: big-endian bytes as they were given, leading
zeros included. Two operands are equal if their bytes are, though they may stand for one number.

* `parse` reads decimal numerals and hexadecimal digits behind `0x`, of any length;
* `ofWord` takes a machine word in its full width, `ofNat` a number;
* `encode` gives the immediate of the narrowest push that holds the number. An operand of no bytes
  (the literal `0x`) has none, nor has a number of more than 32 bytes.
-/

namespace BytecodeAssembler

/-- The bytes of a push operand, most significant first. -/
structure Operand where
  bytes : List UInt8
  deriving Repr, DecidableEq

namespace Operand

/-- A word of a fixed width in bytes. -/
def ofWord (width n : Nat) : Operand :=
  ⟨Bytes.bigEndian width n⟩

/-- A number of any size. -/
def ofNat (n : Nat) : Operand :=
  ⟨Bytes.shortest n⟩

/-- The bytes of hexadecimal digits; an odd number of digits gets a zero in front. -/
def hexBytes? (digits : List Char) : Option (List UInt8) :=
  Bytes.readHex? (if digits.length % 2 = 1 then '0' :: digits else digits)

/-- The bytes of a literal: hexadecimal digits, perhaps none, behind `0x`, or decimal digits. -/
def literalBytes? : List Char → Option (List UInt8)
  | '0' :: 'x' :: digits => hexBytes? digits
  | '0' :: 'X' :: digits => hexBytes? digits
  | cs => (Text.decimalDigits? cs).map Bytes.ofDecimal

/-- Reads a literal. -/
def parse (cs : List Char) : Except Fault Operand :=
  match literalBytes? cs with
  | some bytes => .ok ⟨bytes⟩
  | none => .error (.invalidOperand (String.ofList cs))

/-- Bytes without leading zeros, but for the one byte of the number zero. -/
def minimal (bytes : List UInt8) : List UInt8 :=
  match Bytes.trimZeros bytes with
  | [] => [0]
  | bytes => bytes

/-- The immediate of the narrowest push that holds the operand's number. -/
def encode (v : Operand) : Except Fault (List UInt8) :=
  if v.bytes = [] then .error (.invalidOperand "0x")
  else
    let immediate := minimal v.bytes
    if immediate.length ≤ maxPush then .ok immediate
    else .error (.invalidOperand ("0x" ++ Bytes.hexOf immediate))

end Operand

end BytecodeAssembler
