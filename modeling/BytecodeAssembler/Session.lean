import BytecodeAssembler.Instr.Sweep
import BytecodeAssembler.Labels
import BytecodeAssembler.Operand

/-!
# Assembly sessions

A `Session` is bytecode under construction and its label table. A `Step` appends an instruction or
places a label. A jump to a name pushes the name's offset as three bytes; if the label is not placed
yet, the three bytes are zero and wait, and placing the label writes its offset into every such
site. Nothing else ever changes bytes that were appended.

* `step` takes one step, or leaves the session as it was and says why;
* `run` takes steps up to the first that is refused.
-/

namespace BytecodeAssembler

/-- An instruction of assembly source. -/
inductive Operation
  /-- An operation that stands alone. -/
  | op (o : Opcode)
  /-- A push of an operand in as few bytes as it needs. -/
  | push (v : Operand)
  /-- A copy of the item `n` slots below the top, `n` in 0 to 15. -/
  | dup (n : UInt8)
  /-- An exchange of the top with the item `n` slots below it, `n` in 1 to 16. -/
  | swap (n : UInt8)
  /-- A jump to a label, or to the offset on the stack. -/
  | jump (target : Option String)
  /-- A conditional jump to a label, or to the offset on the stack. -/
  | jumpi (target : Option String)
  deriving Repr, DecidableEq

/-- One step of an assembly. -/
inductive Step
  /-- Places a label at the end of the code. -/
  | place (label : String)
  /-- Appends an instruction. -/
  | perform (o : Operation)
  deriving Repr, DecidableEq

/-- Bytecode under construction and its label table. -/
structure Session where
  code : Array UInt8 := #[]
  labels : Labels := {}
  deriving Repr, DecidableEq

namespace Session

/-- The length of the code, which is the offset of the next byte. -/
def size (s : Session) : Nat :=
  s.code.size

/-- Whether nothing was appended yet. -/
def isEmpty (s : Session) : Bool :=
  s.size == 0

/-- The `n` bytes from an offset on, if the code has them all. -/
def slice? (s : Session) (offset n : Nat) : Option (Array UInt8) :=
  if offset + n ≤ s.size then some (s.code.extract offset (offset + n)) else none

/-- Appends an instruction's bytes. -/
def emit (s : Session) (i : Instr) : Session :=
  ⟨s.code ++ i.toBytes, s.labels⟩

@[simp] theorem toList_emit (s : Session) (i : Instr) :
    (s.emit i).code.toList = s.code.toList ++ i.toBytes := by
  simp [emit]

@[simp] theorem size_emit (s : Session) (i : Instr) : (s.emit i).size = s.size + i.size := by
  rw [size, ← Array.length_toList, toList_emit, List.length_append, Instr.length_toBytes,
    Array.length_toList, size]

/-- Overwrites the bytes from a site on. -/
def overwrite (code : Array UInt8) (site : Nat) : List UInt8 → Array UInt8
  | [] => code
  | b :: bytes => overwrite (code.setIfInBounds site b) (site + 1) bytes

/-- Writes an offset into every one of some sites. -/
def patch (code : Array UInt8) (target : List UInt8) (sites : List Nat) : Array UInt8 :=
  sites.foldl (fun code site => overwrite code site target) code

/-- Pushes the offset of a label, or three zero bytes that wait for it. -/
def pushTarget (s : Session) (name : String) : Session :=
  match s.labels.offset? name with
  | some offset => s.emit (.push (encodeOffset offset))
  | none =>
    emit ⟨s.code, s.labels.defer name (s.code.size + 1)⟩ (.push (List.replicate labelWidth 0))

/-- Appends a jump operation, behind the offset of its target if it names one. -/
def jumpBy (s : Session) (o : Opcode) : Option String → Session
  | some name => (s.pushTarget name).emit (.op o)
  | none => s.emit (.op o)

/-- Places a label: a `JUMPDEST`, whose offset goes to every site that waits for the name. -/
def place (s : Session) (name : String) : Session × Option Fault :=
  match s.labels.define name s.code.size with
  | .error fault => (s, some fault)
  | .ok (sites, labels) =>
    (⟨patch (s.code.push Opcode.JUMPDEST.byte) (encodeOffset s.code.size) sites, labels⟩, none)

/-- Appends an instruction. -/
def perform (s : Session) : Operation → Session × Option Fault
  | .op o => (s.emit (.op o), none)
  | .push v =>
    match v.encode with
    | .ok immediate => (s.emit (.push immediate), none)
    | .error fault => (s, some fault)
  | .dup n =>
    if n.toNat < stackWindow then (s.emit (.dup n), none) else (s, some (.dupOutOfRange n.toNat))
  | .swap n =>
    if 1 ≤ n.toNat ∧ n.toNat ≤ stackWindow then (s.emit (.swap n), none)
    else (s, some (.swapOutOfRange n.toNat))
  | .jump target => (s.jumpBy .JUMP target, none)
  | .jumpi target => (s.jumpBy .JUMPI target, none)

/-- Takes a step, or leaves the session as it was and says why. -/
def step (s : Session) : Step → Session × Option Fault
  | .place name => s.place name
  | .perform o => s.perform o

/-- Takes steps up to the first that is refused. -/
def run (s : Session) : List Step → Session × Option Fault
  | [] => (s, none)
  | a :: as =>
    match s.step a with
    | (t, none) => t.run as
    | (t, some fault) => (t, some fault)

/-- Takes the steps that are not refused, and says of each why it was. -/
def attempt (s : Session) : List Step → Session × List (Option Fault)
  | [] => (s, [])
  | a :: as =>
    let (t, fault?) := s.step a
    let (u, faults) := t.attempt as
    (u, fault? :: faults)

/-- The finished code: it is refused while a site still waits. -/
def runtime (s : Session) : Except Fault (Array UInt8) :=
  match s.labels.checkResolved with
  | .ok () => .ok s.code
  | .error fault => .error fault

end Session

end BytecodeAssembler
