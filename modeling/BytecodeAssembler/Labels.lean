import BytecodeAssembler.Bytes
import BytecodeAssembler.Fault

/-!
# The label table

A label has an offset once it is placed. Until then every reference to it leaves a *site*, the place
in the code that waits for the offset.

* `define` places a label and hands out the sites that waited for it;
* `defer` records a site;
* `unresolved` — the names that still have a site, by their earliest one.

Both tables keep the order of the calls that filled them.
-/

namespace BytecodeAssembler

/-- How many bytes a jump target takes. -/
def labelWidth : Nat := 3

/-- The last offset that a jump target can hold. -/
def maxOffset : Nat := 0xFFFFFF

/-- The operand that holds an offset; bits beyond its width are dropped. -/
def encodeOffset (offset : Nat) : List UInt8 :=
  Bytes.bigEndian labelWidth offset

/-- Placed labels with their offsets, and waiting sites with the names they wait for. -/
structure Labels where
  defined : Array (String × Nat) := #[]
  pending : Array (String × Nat) := #[]
  deriving Repr, DecidableEq

namespace Labels

/-- The offset of a placed label. -/
def offset? (t : Labels) (name : String) : Option Nat :=
  (t.defined.find? fun entry => entry.1 == name).map Prod.snd

/-- The sites that wait for a name, in the order in which they were recorded. -/
def sites (t : Labels) (name : String) : List Nat :=
  (t.pending.toList.filter fun entry => entry.1 == name).map Prod.snd

/-- The names that have a waiting site, by their earliest one. -/
def unresolved (t : Labels) : List String :=
  (t.pending.toList.map Prod.fst).eraseDups

/-- Records a site that waits for a name. -/
def defer (t : Labels) (name : String) (site : Nat) : Labels :=
  ⟨t.defined, t.pending.push (name, site)⟩

/-- Why a label cannot be placed at an offset. -/
def refusal? (t : Labels) (name : String) (offset : Nat) : Option Fault :=
  if (t.offset? name).isSome then some (.duplicateLabel name)
  else if maxOffset < offset then some (.offsetOverflow name offset)
  else none

/-- Places a label and hands out the sites that waited for it. -/
def define (t : Labels) (name : String) (offset : Nat) : Except Fault (List Nat × Labels) :=
  match t.refusal? name offset with
  | some fault => .error fault
  | none =>
    .ok (t.sites name,
      ⟨t.defined.push (name, offset), t.pending.filter fun entry => entry.1 != name⟩)

/-- Refuses a table in which a site still waits. -/
def checkResolved (t : Labels) : Except Fault Unit :=
  if t.pending.isEmpty then .ok () else .error (.unresolvedLabels t.unresolved)

end Labels

end BytecodeAssembler
