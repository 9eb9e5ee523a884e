import BytecodeAssembler.Disk.Furnish
import BytecodeAssembler.Main
import BytecodeAssembler.Opcode.Lookup
import BytecodeAssembler.Proofs.Installation
import BytecodeAssembler.Proofs.Ledger
import BytecodeAssembler.Proofs.Frame
import BytecodeAssembler.Proofs.Literals
import BytecodeAssembler.Proofs.Payload
import BytecodeAssembler.Proofs.Relocation
import BytecodeAssembler.Proofs.Renaming
import BytecodeAssembler.Proofs.Completion
import BytecodeAssembler.Proofs.Outcome
import BytecodeAssembler.Proofs.Overwriting
import BytecodeAssembler.Proofs.Numbers
import BytecodeAssembler.Proofs.Splitting
import BytecodeAssembler.Proofs.Dump
import BytecodeAssembler.Proofs.Diagnosis
import BytecodeAssembler.Proofs.Relisting
import BytecodeAssembler.Proofs.Grammar
import BytecodeAssembler.Proofs.Rendering
import BytecodeAssembler.Proofs.Layout
import BytecodeAssembler.Proofs.Locality
import BytecodeAssembler.Proofs.Printing
import BytecodeAssembler.Proofs.Conservation
import BytecodeAssembler.Proofs.Decimal
import BytecodeAssembler.Proofs.Immediates
