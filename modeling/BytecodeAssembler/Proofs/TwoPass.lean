import BytecodeAssembler.Statement
import BytecodeAssembler.Proofs.Operand
import BytecodeAssembler.Proofs.Sweep

/-!
# Assembly in two passes

The assembler to which sessions are compared. It knows all steps before it writes the first byte:

* `layout` puts steps one after another, by the width of each;
* `table` — the first pass: the offsets of the labels that steps place;
* `code` — the second pass: the bytes of every step, with jumps to the offsets in the table;
* `missing` — the names that are referenced but never placed;
* `Refused taken a` — when a step cannot be taken behind the steps `taken`.

No byte is written twice, no reference waits, and a table is only read once it is complete.
-/

namespace BytecodeAssembler

namespace Step

/-- The label that a step places. -/
def label? : Step → Option String
  | place name => some name
  | perform _ => none

/-- The label that a step refers to. -/
def reference? : Step → Option String
  | place _ => none
  | perform o => o.target?

/-- How many bytes a step takes. -/
def width : Step → Nat
  | perform (.push v) => 1 + (Bytes.shortest (Bytes.valueOf v.bytes)).length
  | perform (.jump (some _)) => 5
  | perform (.jumpi (some _)) => 5
  | _ => 1

/-- The instructions of a step, given what a jump to a name pushes. -/
def instrs (operand : String → List UInt8) : Step → List Instr
  | place _ => [.op .JUMPDEST]
  | perform (.op o) => [.op o]
  | perform (.push v) => [.push (Bytes.shortest (Bytes.valueOf v.bytes))]
  | perform (.dup n) => [.dup n]
  | perform (.swap n) => [.swap n]
  | perform (.jump none) => [.op .JUMP]
  | perform (.jump (some name)) => [.push (operand name), .op .JUMP]
  | perform (.jumpi none) => [.op .JUMPI]
  | perform (.jumpi (some name)) => [.push (operand name), .op .JUMPI]

end Step

namespace TwoPass

/-! ### The two passes -/

/-- Steps one after another from an offset on, each with its offset. -/
def layout : Nat → List Step → List (Nat × Step)
  | _, [] => []
  | offset, a :: as => (offset, a) :: layout (offset + a.width) as

/-- How many bytes steps take together. -/
def extent (as : List Step) : Nat :=
  (as.map Step.width).sum

/-- **The first pass**: the labels that steps place, with their offsets. -/
def table (as : List Step) : List (String × Nat) :=
  (layout 0 as).filterMap fun (offset, a) => a.label?.map fun name => (name, offset)

/-- What a jump to a name pushes: the offset of its label, or zeros if it has none. -/
def operand (labels : List (String × Nat)) (name : String) : List UInt8 :=
  match labels.lookup name with
  | some offset => Bytes.bigEndian 3 offset
  | none => [0, 0, 0]

/-- The bytes of a jump with an opcode, behind the push of its target if it names one. -/
def bytesOfJump (labels : List (String × Nat)) (opcode : UInt8) : Option String → List UInt8
  | some name => 0x62 :: operand labels name ++ [opcode]
  | none => [opcode]

/-- The bytes of a step, given the table of labels. -/
def bytesOf (labels : List (String × Nat)) : Step → List UInt8
  | .place _ => [0x5B]
  | .perform (.op o) => [o.byte]
  | .perform (.push v) =>
    let immediate := Bytes.shortest (Bytes.valueOf v.bytes)
    UInt8.ofNat (0x5F + immediate.length) :: immediate
  | .perform (.dup n) => [0x80 + n]
  | .perform (.swap n) => [0x8F + n]
  | .perform (.jump target) => bytesOfJump labels 0x56 target
  | .perform (.jumpi target) => bytesOfJump labels 0x57 target

/-- **The second pass**: the bytes of all steps, with the table of all their labels. -/
def code (as : List Step) : List UInt8 :=
  as.flatMap (bytesOf (table as))

/-- The names that are referenced and never placed, each once, by first reference. -/
def missing (as : List Step) : List String :=
  ((as.filterMap Step.reference?).filter fun name => Step.place name ∉ as).eraseDups

/-- When a step cannot be taken behind other steps: a push of no bytes or of a number that 32 bytes
do not hold, an index outside its range, a label that is placed already or past the last offset. -/
def Refused (taken : List Step) : Step → Prop
  | .perform (.push v) => v.bytes = [] ∨ 256 ^ 32 ≤ Bytes.valueOf v.bytes
  | .perform (.dup n) => 15 < n.toNat
  | .perform (.swap n) => n.toNat < 1 ∨ 16 < n.toNat
  | .place name => Step.place name ∈ taken ∨ 0xFFFFFF < extent taken
  | _ => False

/-- Steps none of which is refused behind those before it. -/
def Lawful (as : List Step) : Prop :=
  ∀ before a after, as = before ++ a :: after → ¬ Refused before a

theorem lawful_nil : Lawful [] := by
  intro before a after h
  simp at h

theorem Lawful.concat {as : List Step} {a : Step} (h : Lawful as) (ha : ¬ Refused as a) :
    Lawful (as ++ [a]) := by
  intro before b after heq
  rcases List.eq_nil_or_concat after with rfl | ⟨after, c, rfl⟩
  · obtain ⟨rfl, hb⟩ := List.append_inj' heq rfl
    obtain rfl : a = b := by simpa using hb
    exact ha
  · rw [List.concat_eq_append, ← List.cons_append, ← List.append_assoc] at heq
    exact h before b after (List.append_inj' heq rfl).1

/-! ### Layout -/

theorem layout_append (offset : Nat) (as bs : List Step) :
    layout offset (as ++ bs) = layout offset as ++ layout (offset + extent as) bs := by
  induction as generalizing offset with
  | nil => rfl
  | cons a as ih => simp [layout, extent, ih, Nat.add_assoc]

@[simp] theorem extent_nil : extent [] = 0 := rfl

@[simp] theorem extent_append (as bs : List Step) : extent (as ++ bs) = extent as + extent bs := by
  simp [extent]

@[simp] theorem extent_cons (a : Step) (as : List Step) :
    extent (a :: as) = a.width + extent as := by
  simp [extent]

/-- A step lies behind the steps before it. -/
theorem mem_layout {offset pc : Nat} {a : Step} {as : List Step} :
    (pc, a) ∈ layout offset as ↔
      ∃ before after, as = before ++ a :: after ∧ pc = offset + extent before := by
  constructor
  · intro h
    induction as generalizing offset with
    | nil => simp [layout] at h
    | cons b as ih =>
      rw [layout, List.mem_cons] at h
      rcases h with h | h
      · obtain ⟨rfl, rfl⟩ := Prod.mk.inj h
        exact ⟨[], as, rfl, by simp⟩
      · obtain ⟨before, after, rfl, rfl⟩ := ih h
        exact ⟨b :: before, after, rfl, by simp [Nat.add_assoc]⟩
  · rintro ⟨before, after, rfl, rfl⟩
    rw [layout_append]
    exact List.mem_append_right _ List.mem_cons_self

theorem width_pos (a : Step) : 1 ≤ a.width := by
  unfold Step.width
  split <;> omega

/-! ### The table -/

theorem table_append (as bs : List Step) :
    table (as ++ bs) = table as ++ (layout (extent as) bs).filterMap fun (offset, a) =>
      a.label?.map fun name => (name, offset) := by
  simp [table, layout_append]

theorem table_place (as : List Step) (name : String) :
    table (as ++ [.place name]) = table as ++ [(name, extent as)] := by
  simp [table_append, layout, Step.label?]

theorem table_perform (as : List Step) (o : Operation) :
    table (as ++ [.perform o]) = table as := by
  simp [table_append, layout, Step.label?]

theorem mem_table {name : String} {offset : Nat} {as : List Step} :
    (name, offset) ∈ table as ↔ (offset, Step.place name) ∈ layout 0 as := by
  rw [table, List.mem_filterMap]
  constructor
  · rintro ⟨⟨pc, a⟩, hmem, heq⟩
    cases a with
    | place label =>
      obtain ⟨rfl, rfl⟩ : label = name ∧ pc = offset := by simpa [Step.label?] using heq
      exact hmem
    | perform o => simp [Step.label?] at heq
  · intro hmem
    exact ⟨(offset, .place name), hmem, by simp [Step.label?]⟩

theorem lookup_table_eq_none_iff {name : String} {as : List Step} :
    (table as).lookup name = none ↔ Step.place name ∉ as := by
  rw [List.lookup_eq_none_iff]
  constructor
  · intro h hmem
    obtain ⟨before, after, rfl⟩ := List.append_of_mem hmem
    have hentry : (name, 0 + extent before) ∈ table (before ++ .place name :: after) :=
      mem_table.mpr (mem_layout.mpr ⟨before, after, rfl, rfl⟩)
    simpa using h _ hentry
  · rintro h ⟨label, offset⟩ hentry
    obtain ⟨before, after, rfl, -⟩ := mem_layout.mp (mem_table.mp hentry)
    have hne : name ≠ label := by
      rintro rfl
      exact h (by simp)
    simpa using hne

theorem lookup_append_self {labels : List (String × Nat)} {name : String} (offset : Nat)
    (h : labels.lookup name = none) : (labels ++ [(name, offset)]).lookup name = some offset := by
  rw [List.lookup_append, h]
  simp

theorem lookup_append_of_ne {labels : List (String × Nat)} {name label : String} (offset : Nat)
    (h : name ≠ label) : (labels ++ [(label, offset)]).lookup name = labels.lookup name := by
  have hne : (name == label) = false := by simpa using h
  simp [List.lookup_append, List.lookup_cons, hne]

/-! ### Bytes -/

theorem length_operand (labels : List (String × Nat)) (name : String) :
    (operand labels name).length = 3 := by
  unfold operand
  split
  · exact Bytes.length_bigEndian 3 _
  · rfl

theorem length_bytesOf (labels : List (String × Nat)) (a : Step) :
    (bytesOf labels a).length = a.width := by
  rcases a with name | (o | v | n | n | (_ | target) | (_ | target))
  all_goals simp [bytesOf, bytesOfJump, Step.width, length_operand, Nat.add_comm]

theorem length_flatMap_bytesOf (labels : List (String × Nat)) (as : List Step) :
    (as.flatMap (bytesOf labels)).length = extent as := by
  induction as with
  | nil => rfl
  | cons a as ih => simp [length_bytesOf, ih]

theorem length_code (as : List Step) : (code as).length = extent as :=
  length_flatMap_bytesOf _ as

theorem code_perform (as : List Step) (o : Operation) :
    code (as ++ [.perform o]) = code as ++ bytesOf (table as) (.perform o) := by
  simp [code, table_perform]

theorem code_place (as : List Step) (name : String) :
    code (as ++ [.place name]) =
      as.flatMap (bytesOf (table as ++ [(name, extent as)])) ++ [0x5B] := by
  simp [code, table_place, bytesOf]

/-- A step that refers to a label is a push of the label's offset and a jump. -/
theorem bytesOf_of_reference {a : Step} {name : String} (h : a.reference? = some name) :
    ∃ o : Opcode, (o = .JUMP ∨ o = .JUMPI) ∧
      ∀ labels, bytesOf labels a = 0x62 :: operand labels name ++ [o.byte] := by
  rcases a with label | (o | v | n | n | target | target)
  case perform.jump =>
    obtain rfl : target = some name := h
    exact ⟨.JUMP, Or.inl rfl, fun labels => rfl⟩
  case perform.jumpi =>
    obtain rfl : target = some name := h
    exact ⟨.JUMPI, Or.inr rfl, fun labels => rfl⟩
  all_goals exact absurd h (by simp [Step.reference?, Operation.target?])

/-- The table matters to a step only in the entry of the label that it refers to. -/
theorem bytesOf_congr {labels labels' : List (String × Nat)} {a : Step}
    (h : ∀ name, a.reference? = some name → labels.lookup name = labels'.lookup name) :
    bytesOf labels a = bytesOf labels' a := by
  cases hr : a.reference? with
  | some name =>
    obtain ⟨o, -, hbytes⟩ := bytesOf_of_reference hr
    rw [hbytes, hbytes, operand, operand, h name hr]
  | none =>
    rcases a with label | (o | v | n | n | (_ | target) | (_ | target))
    case perform.jump.some | perform.jumpi.some => cases hr
    all_goals rfl

/-! ### Instructions -/

theorem instrs_proper {taken : List Step} {a : Step} (ha : ¬ Refused taken a)
    {operand : String → List UInt8} (hoperand : ∀ name, (operand name).length = 3) :
    ∀ i ∈ a.instrs operand, i.Proper := by
  rcases a with name | (o | v | n | n | (_ | target) | (_ | target))
  case perform.push =>
    obtain ⟨-, hlt⟩ := not_or.mp ha
    have hlen := (Bytes.length_shortest_le_iff (k := 32) (by decide) _).mpr (Nat.not_le.mp hlt)
    exact List.forall_mem_singleton.mpr ⟨Bytes.length_shortest_pos _, hlen⟩
  case perform.dup =>
    have hn : ¬ 15 < n.toNat := ha
    have hlt : n.toNat < stackWindow := by rw [stackWindow]; omega
    exact List.forall_mem_singleton.mpr hlt
  case perform.swap =>
    obtain ⟨hlow, hhigh⟩ := not_or.mp ha
    exact List.forall_mem_singleton.mpr ⟨Nat.not_lt.mp hlow, Nat.not_lt.mp hhigh⟩
  all_goals simp [Step.instrs, Instr.Proper, hoperand, maxPush]

theorem toBytes_push_of_length {immediate : List UInt8} (h : immediate.length = 3) :
    (Instr.push immediate).toBytes = 0x62 :: immediate := by
  rw [Instr.toBytes, Instr.opcode, h]
  rfl

/-- The bytes of a step that is not refused are those of its instructions. -/
theorem bytesOf_eq_flatten {taken : List Step} {a : Step} (ha : ¬ Refused taken a)
    (labels : List (String × Nat)) :
    bytesOf labels a = Instr.flatten (a.instrs (operand labels)) := by
  have hproper := instrs_proper ha (length_operand labels)
  rcases a with name | (o | v | n | n | (_ | target) | (_ | target))
  case perform.push =>
    have himm := hproper _ List.mem_cons_self
    have hopcode := Instr.toNat_opcode_push himm
    have hle : (Bytes.shortest (Bytes.valueOf v.bytes)).length ≤ 32 := himm.2
    have hbyte : UInt8.ofNat (0x5F + (Bytes.shortest (Bytes.valueOf v.bytes)).length) =
        (Instr.push (Bytes.shortest (Bytes.valueOf v.bytes))).opcode := by
      apply UInt8.toNat_inj.mp
      rw [hopcode, UInt8.toNat_ofNat']
      omega
    simp only [bytesOf, hbyte, Step.instrs, Instr.flatten_cons, Instr.toBytes, Instr.flatten_nil,
      List.append_nil]
  case perform.swap =>
    have hbyte : 0x8F + n = swap1 + (n - 1) := by
      unfold swap1
      grind
    simp only [bytesOf, hbyte, Step.instrs, Instr.flatten_cons, Instr.toBytes, Instr.opcode,
      Instr.flatten_nil, List.append_nil]
  case perform.jump.some | perform.jumpi.some =>
    simp only [Step.instrs, Instr.flatten_cons, toBytes_push_of_length (length_operand _ _)]
    rfl
  all_goals rfl

end TwoPass

end BytecodeAssembler
