import BytecodeAssembler.Opcode
import BytecodeAssembler.Text.Numeral

/-!
# Reading an operation from its names

`parse` reads a word in any letter case, `ofName` a name as it is written, `decode` a byte, and
`ofSerial?` a serialized operation. `NoOpcode` tells what was not the name of an operation.
-/

namespace BytecodeAssembler

/-- What is not the name of an operation. -/
inductive NoOpcode
  | word (w : String)
  | name
  | byte (b : UInt8)
  deriving Repr, DecidableEq

/-- The wording for what is not the name of an operation. -/
def NoOpcode.message : NoOpcode → String
  | word w => "Undefined Op: " ++ w
  | name => "Matching variant not found"
  | byte b => "No discriminant in enum `Op` matches the value `" ++ Text.decimal b.toNat ++ "`"

namespace Opcode

/-- Reads a word in whatever letter case. -/
def parse (w : String) : Except NoOpcode Opcode :=
  match ofWord? w.toList with
  | some o => .ok o
  | none => .error (.word w)

/-- Reads a name as it is written, older names included. -/
def ofName (s : String) : Except NoOpcode Opcode :=
  match ofName? s with
  | some o => .ok o
  | none => .error .name

/-- Reads a byte. -/
def decode (b : UInt8) : Except NoOpcode Opcode :=
  match ofByte? b with
  | some o => .ok o
  | none => .error (.byte b)

/-- A serialized value, as far as operations need it. -/
inductive Serial
  | null
  | text (s : String)
  | record (fields : List (String × Serial))
  | other
  deriving Inhabited

/-- The serialized form of an operation: its name. -/
def toSerial (o : Opcode) : Serial :=
  .text o.mnemonic

/-- Reads a serialized operation: its name, or a record with the name as its only field and nothing
in that. -/
def ofSerial? : Serial → Option Opcode
  | .text s => ofMnemonic? s
  | .record [(s, .null)] => ofMnemonic? s
  | _ => none

end Opcode

end BytecodeAssembler
