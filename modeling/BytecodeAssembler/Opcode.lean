import BytecodeAssembler.Text.Letter

/-!
# Operations of the virtual machine that stand alone

An `Opcode` is an operation that is one byte and carries nothing with it. The families that reach
into the stack or carry an immediate (`PUSH`, `DUP`, `SWAP`) are instructions of their own and have
no `Opcode`.

* `byte` and `mnemonic` — the names of an operation, by which `ofByte?` and `ofMnemonic?` find it;
* `ofName?` also knows the older names of `KECCAK256`;
* `ofWord?` reads a name without regard to letter case.
-/

namespace BytecodeAssembler

/-- An operation that is exactly one byte. -/
inductive Opcode
  | STOP | ADD | MUL | SUB | DIV | SDIV | MOD | SMOD | ADDMOD | MULMOD | EXP | SIGNEXTEND
  | LT | GT | SLT | SGT | EQ | ISZERO | AND | OR | XOR | NOT | BYTE | SHL | SHR | SAR
  | KECCAK256
  | ADDRESS | BALANCE | ORIGIN | CALLER | CALLVALUE | CALLDATALOAD | CALLDATASIZE | CALLDATACOPY
  | CODESIZE | CODECOPY | GASPRICE | EXTCODESIZE | EXTCODECOPY | RETURNDATASIZE | RETURNDATACOPY
  | EXTCODEHASH
  | BLOCKHASH | COINBASE | TIMESTAMP | NUMBER | DIFFICULTY | GASLIMIT | CHAINID | SELFBALANCE
  | BASEFEE
  | POP | MLOAD | MSTORE | MSTORE8 | SLOAD | SSTORE | JUMP | JUMPI | PC | MSIZE | GAS | JUMPDEST
  | LOG0 | LOG1 | LOG2 | LOG3 | LOG4
  | CREATE | CALL | CALLCODE | RETURN | DELEGATECALL | CREATE2 | STATICCALL | REVERT | INVALID
  | SELFDESTRUCT
  deriving Repr, DecidableEq

namespace Opcode

/-- The byte of an operation. -/
def byte : Opcode → UInt8
  | .STOP => 0x00
  | .ADD => 0x01
  | .MUL => 0x02
  | .SUB => 0x03
  | .DIV => 0x04
  | .SDIV => 0x05
  | .MOD => 0x06
  | .SMOD => 0x07
  | .ADDMOD => 0x08
  | .MULMOD => 0x09
  | .EXP => 0x0A
  | .SIGNEXTEND => 0x0B
  | .LT => 0x10
  | .GT => 0x11
  | .SLT => 0x12
  | .SGT => 0x13
  | .EQ => 0x14
  | .ISZERO => 0x15
  | .AND => 0x16
  | .OR => 0x17
  | .XOR => 0x18
  | .NOT => 0x19
  | .BYTE => 0x1A
  | .SHL => 0x1B
  | .SHR => 0x1C
  | .SAR => 0x1D
  | .KECCAK256 => 0x20
  | .ADDRESS => 0x30
  | .BALANCE => 0x31
  | .ORIGIN => 0x32
  | .CALLER => 0x33
  | .CALLVALUE => 0x34
  | .CALLDATALOAD => 0x35
  | .CALLDATASIZE => 0x36
  | .CALLDATACOPY => 0x37
  | .CODESIZE => 0x38
  | .CODECOPY => 0x39
  | .GASPRICE => 0x3A
  | .EXTCODESIZE => 0x3B
  | .EXTCODECOPY => 0x3C
  | .RETURNDATASIZE => 0x3D
  | .RETURNDATACOPY => 0x3E
  | .EXTCODEHASH => 0x3F
  | .BLOCKHASH => 0x40
  | .COINBASE => 0x41
  | .TIMESTAMP => 0x42
  | .NUMBER => 0x43
  | .DIFFICULTY => 0x44
  | .GASLIMIT => 0x45
  | .CHAINID => 0x46
  | .SELFBALANCE => 0x47
  | .BASEFEE => 0x48
  | .POP => 0x50
  | .MLOAD => 0x51
  | .MSTORE => 0x52
  | .MSTORE8 => 0x53
  | .SLOAD => 0x54
  | .SSTORE => 0x55
  | .JUMP => 0x56
  | .JUMPI => 0x57
  | .PC => 0x58
  | .MSIZE => 0x59
  | .GAS => 0x5A
  | .JUMPDEST => 0x5B
  | .LOG0 => 0xA0
  | .LOG1 => 0xA1
  | .LOG2 => 0xA2
  | .LOG3 => 0xA3
  | .LOG4 => 0xA4
  | .CREATE => 0xF0
  | .CALL => 0xF1
  | .CALLCODE => 0xF2
  | .RETURN => 0xF3
  | .DELEGATECALL => 0xF4
  | .CREATE2 => 0xF5
  | .STATICCALL => 0xFA
  | .REVERT => 0xFD
  | .INVALID => 0xFE
  | .SELFDESTRUCT => 0xFF

/-- The name of an operation. -/
def mnemonic : Opcode → String
  | .STOP => "STOP"
  | .ADD => "ADD"
  | .MUL => "MUL"
  | .SUB => "SUB"
  | .DIV => "DIV"
  | .SDIV => "SDIV"
  | .MOD => "MOD"
  | .SMOD => "SMOD"
  | .ADDMOD => "ADDMOD"
  | .MULMOD => "MULMOD"
  | .EXP => "EXP"
  | .SIGNEXTEND => "SIGNEXTEND"
  | .LT => "LT"
  | .GT => "GT"
  | .SLT => "SLT"
  | .SGT => "SGT"
  | .EQ => "EQ"
  | .ISZERO => "ISZERO"
  | .AND => "AND"
  | .OR => "OR"
  | .XOR => "XOR"
  | .NOT => "NOT"
  | .BYTE => "BYTE"
  | .SHL => "SHL"
  | .SHR => "SHR"
  | .SAR => "SAR"
  | .KECCAK256 => "KECCAK256"
  | .ADDRESS => "ADDRESS"
  | .BALANCE => "BALANCE"
  | .ORIGIN => "ORIGIN"
  | .CALLER => "CALLER"
  | .CALLVALUE => "CALLVALUE"
  | .CALLDATALOAD => "CALLDATALOAD"
  | .CALLDATASIZE => "CALLDATASIZE"
  | .CALLDATACOPY => "CALLDATACOPY"
  | .CODESIZE => "CODESIZE"
  | .CODECOPY => "CODECOPY"
  | .GASPRICE => "GASPRICE"
  | .EXTCODESIZE => "EXTCODESIZE"
  | .EXTCODECOPY => "EXTCODECOPY"
  | .RETURNDATASIZE => "RETURNDATASIZE"
  | .RETURNDATACOPY => "RETURNDATACOPY"
  | .EXTCODEHASH => "EXTCODEHASH"
  | .BLOCKHASH => "BLOCKHASH"
  | .COINBASE => "COINBASE"
  | .TIMESTAMP => "TIMESTAMP"
  | .NUMBER => "NUMBER"
  | .DIFFICULTY => "DIFFICULTY"
  | .GASLIMIT => "GASLIMIT"
  | .CHAINID => "CHAINID"
  | .SELFBALANCE => "SELFBALANCE"
  | .BASEFEE => "BASEFEE"
  | .POP => "POP"
  | .MLOAD => "MLOAD"
  | .MSTORE => "MSTORE"
  | .MSTORE8 => "MSTORE8"
  | .SLOAD => "SLOAD"
  | .SSTORE => "SSTORE"
  | .JUMP => "JUMP"
  | .JUMPI => "JUMPI"
  | .PC => "PC"
  | .MSIZE => "MSIZE"
  | .GAS => "GAS"
  | .JUMPDEST => "JUMPDEST"
  | .LOG0 => "LOG0"
  | .LOG1 => "LOG1"
  | .LOG2 => "LOG2"
  | .LOG3 => "LOG3"
  | .LOG4 => "LOG4"
  | .CREATE => "CREATE"
  | .CALL => "CALL"
  | .CALLCODE => "CALLCODE"
  | .RETURN => "RETURN"
  | .DELEGATECALL => "DELEGATECALL"
  | .CREATE2 => "CREATE2"
  | .STATICCALL => "STATICCALL"
  | .REVERT => "REVERT"
  | .INVALID => "INVALID"
  | .SELFDESTRUCT => "SELFDESTRUCT"

/-- Every operation, by ascending byte. -/
def all : List Opcode :=
  [.STOP, .ADD, .MUL, .SUB, .DIV, .SDIV, .MOD, .SMOD, .ADDMOD, .MULMOD, .EXP, .SIGNEXTEND, .LT,
   .GT, .SLT, .SGT, .EQ, .ISZERO, .AND, .OR, .XOR, .NOT, .BYTE, .SHL, .SHR, .SAR, .KECCAK256,
   .ADDRESS, .BALANCE, .ORIGIN, .CALLER, .CALLVALUE, .CALLDATALOAD, .CALLDATASIZE, .CALLDATACOPY,
   .CODESIZE, .CODECOPY, .GASPRICE, .EXTCODESIZE, .EXTCODECOPY, .RETURNDATASIZE, .RETURNDATACOPY,
   .EXTCODEHASH, .BLOCKHASH, .COINBASE, .TIMESTAMP, .NUMBER, .DIFFICULTY, .GASLIMIT, .CHAINID,
   .SELFBALANCE, .BASEFEE, .POP, .MLOAD, .MSTORE, .MSTORE8, .SLOAD, .SSTORE, .JUMP, .JUMPI, .PC,
   .MSIZE, .GAS, .JUMPDEST, .LOG0, .LOG1, .LOG2, .LOG3, .LOG4, .CREATE, .CALL, .CALLCODE,
   .RETURN, .DELEGATECALL, .CREATE2, .STATICCALL, .REVERT, .INVALID, .SELFDESTRUCT]

/-- The operation with a byte. -/
def ofByte? (b : UInt8) : Option Opcode :=
  all.find? (·.byte == b)

/-- The operation with a name, in upper case as it is written. -/
def ofMnemonic? (name : String) : Option Opcode :=
  all.find? (·.mnemonic == name)

/-- The operation with a name or an older name, in upper case as it is written. -/
def ofName? (name : String) : Option Opcode :=
  if name = "SHA3" ∨ name = "KECCAK" then some KECCAK256 else ofMnemonic? name

/-- The operation a word names, in whatever letter case. -/
def ofWord? (word : List Char) : Option Opcode :=
  ofName? (String.ofList (Text.upper word))

/-- The name of an operation in lower case, as listings show it. -/
def lowerName (o : Opcode) : String :=
  String.ofList (Text.lower o.mnemonic.toList)

end Opcode

end BytecodeAssembler
