import BytecodeAssembler.Instr

/-!
# The linear sweep

`sweep` takes bytecode apart into instructions, each with its offset. A push whose immediate would
run past the end is a single byte of data, and the sweep goes on behind that byte.
-/

namespace BytecodeAssembler

namespace Instr

/-- The instruction that starts with a byte `b` when `rest` follows it. -/
def ofHead (b : UInt8) (rest : List UInt8) : Instr :=
  if 0x60 ≤ b ∧ b ≤ 0x7F then
    let width := b.toNat - 0x5F
    let immediate := rest.take width
    if immediate.length = width then push immediate else data b
  else if 0x80 ≤ b ∧ b ≤ 0x8F then dup (b - dup1)
  else if 0x90 ≤ b ∧ b ≤ 0x9F then swap (b - swap1 + 1)
  else match Opcode.ofByte? b with
    | some o => op o
    | none => data b

/-- The instructions of bytes that start at offset `pc`, after passing over `skip` bytes that belong
to an immediate. -/
def sweepFrom (pc skip : Nat) : List UInt8 → List (Nat × Instr)
  | [] => []
  | b :: rest =>
    match skip with
    | skip + 1 => sweepFrom (pc + 1) skip rest
    | 0 =>
      let i := ofHead b rest
      (pc, i) :: sweepFrom (pc + 1) (i.size - 1) rest

/-- The instructions of bytecode in order, each with its offset. -/
def sweep (code : List UInt8) : List (Nat × Instr) :=
  sweepFrom 0 0 code

/-- The bytes of instructions one after another. -/
def flatten (instrs : List Instr) : List UInt8 :=
  instrs.flatMap toBytes

end Instr

end BytecodeAssembler
