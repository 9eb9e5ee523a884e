import BytecodeAssembler.Bytes
import BytecodeAssembler.Opcode
import BytecodeAssembler.Text.Numeral
import BytecodeAssembler.Text.Styled

/-!
# Instructions as they stand in a byte stream

An `Instr` is one step of a linear sweep over bytecode: an operation, a push with its immediate, a
member of the `DUP` or `SWAP` family, or a byte of data that is no instruction.

* `opcode`, `size` and `toBytes` — its encoding;
* `value?` — the number a short push immediate stands for;
* `text` and `listed` — how it is printed, plainly and in a listing.
-/

namespace BytecodeAssembler

/-- The byte of `PUSH1`; the widths from 2 to 32 follow. -/
def push1 : UInt8 := 0x60

/-- The byte of `DUP1`; the fifteen deeper ones follow. -/
def dup1 : UInt8 := 0x80

/-- The byte of `SWAP1`; the fifteen deeper ones follow. -/
def swap1 : UInt8 := 0x90

/-- The widest immediate of a push, in bytes. -/
def maxPush : Nat := 32

/-- How many stack slots `DUP` and `SWAP` reach. -/
def stackWindow : Nat := 16

/-- One instruction of a byte stream. -/
inductive Instr
  /-- An operation that stands alone. -/
  | op (o : Opcode)
  /-- A push with its immediate, most significant byte first. -/
  | push (immediate : List UInt8)
  /-- A copy of the item `n` slots below the top. -/
  | dup (n : UInt8)
  /-- An exchange of the top with the item `n` slots below it. -/
  | swap (n : UInt8)
  /-- A byte that begins no instruction. -/
  | data (b : UInt8)
  deriving Repr, DecidableEq

namespace Instr

/-! ### Encoding -/

/-- The first byte of an instruction. -/
def opcode : Instr → UInt8
  | op o => o.byte
  | push immediate => push1 + UInt8.ofNat (max immediate.length 1 - 1)
  | dup n => dup1 + n
  | swap n => swap1 + (n - 1)
  | data b => b

/-- The number of bytes an instruction takes. -/
def size : Instr → Nat
  | push immediate => 1 + immediate.length
  | _ => 1

/-- The bytes of an instruction. -/
def toBytes : Instr → List UInt8
  | push immediate => (push immediate).opcode :: immediate
  | i => [i.opcode]

theorem length_toBytes (i : Instr) : i.toBytes.length = i.size := by
  cases i <;> simp [toBytes, size, Nat.add_comm]

/-- The value of a push immediate of at most eight bytes. -/
def value? : Instr → Option Nat
  | push immediate => if immediate.length ≤ 8 then some (Bytes.valueOf immediate) else none
  | _ => none

/-! ### Text -/

/-- The instruction in words: its mnemonic and its immediate. -/
def text : Instr → String
  | op o => o.mnemonic
  | push immediate =>
    "PUSH" ++ Text.decimal immediate.length ++ " 0x" ++ Bytes.hexOf immediate
  | dup n => "DUP" ++ Text.decimal (n.toNat + 1)
  | swap n => "SWAP" ++ Text.decimal n.toNat
  | data b => "DATA 0x" ++ Bytes.hexOf [b]

open Text in
/-- The instruction as a listing shows it, with its immediate in the eighth column. -/
def listed : Instr → Styled
  | op o => .paint .red o.lowerName
  | push immediate =>
    .paint .red (padRight 7 ("push" ++ decimal immediate.length)) ++
      .paint .yellow ("0x" ++ Bytes.hexOf immediate)
  | dup n => .paint .red ("dup" ++ decimal (n.toNat + 1))
  | swap n => .paint .red ("swap" ++ decimal n.toNat)
  | data b =>
    .part { colour := some .red, bold := true } (.text "data") ++ .text "   " ++
      .paint .yellow ("0x" ++ Bytes.hexOf [b])

end Instr

end BytecodeAssembler
