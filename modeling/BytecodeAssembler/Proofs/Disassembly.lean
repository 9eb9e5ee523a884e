import Mathlib.Data.List.Basic
import BytecodeAssembler.Deployment
import BytecodeAssembler.Proofs.Linking

/-!
# What a sweep finds in the code of a session

A sweep over the code of a session finds the instructions of the steps that were taken, where they
were written, though operands were rewritten in between (`sweep_attempt`). Rewriting never moves a
boundary, because a reference takes the same bytes before and after its label is placed.

So a label's offset is where the sweep finds its `JUMPDEST`, and a jump to the label pushes just
that offset (`jumps_land`); `Lands code pc target` says it of one jump.
-/

namespace BytecodeAssembler

open TwoPass

namespace TwoPass

/-! ### The instructions of steps -/

theorem span_instrs (a : Step) {operand : String → List UInt8}
    (hoperand : ∀ name, (operand name).length = 3) :
    Instr.span (a.instrs operand) = a.width := by
  rcases a with name | (o | v | n | n | (_ | target) | (_ | target))
  all_goals simp [Step.instrs, Step.width, Instr.size, hoperand]

theorem located_flatMap_instrs {operand : String → List UInt8}
    (hoperand : ∀ name, (operand name).length = 3) (offset : Nat) (as : List Step) :
    Instr.located offset (as.flatMap (Step.instrs operand)) =
      (layout offset as).flatMap fun entry => Instr.located entry.1 (entry.2.instrs operand) := by
  induction as generalizing offset with
  | nil => rfl
  | cons a as ih =>
    rw [List.flatMap_cons, Instr.located_append, span_instrs a hoperand, ih, layout,
      List.flatMap_cons]

theorem data_not_mem_instrs (b : UInt8) (a : Step) (operand : String → List UInt8) :
    Instr.data b ∉ a.instrs operand := by
  rcases a with name | (o | v | n | n | (_ | target) | (_ | target))
  all_goals simp [Step.instrs]

/-- **A sweep over the bytes of steps that are not refused finds their instructions.** -/
theorem sweep_flatMap_bytesOf {as : List Step} (h : ∀ a ∈ as, ∃ before, ¬ Refused before a)
    (labels : List (String × Nat)) :
    Instr.sweep (as.flatMap (bytesOf labels)) =
      Instr.located 0 (as.flatMap (Step.instrs (operand labels))) := by
  have hbytes : as.flatMap (bytesOf labels) =
      Instr.flatten (as.flatMap (Step.instrs (operand labels))) := by
    rw [Instr.flatten, List.flatMap_assoc]
    refine List.flatMap_congr fun a ha => ?_
    obtain ⟨before, hnot⟩ := h a ha
    exact bytesOf_eq_flatten hnot labels
  rw [hbytes, Instr.sweep_flatten]
  intro i hi
  obtain ⟨a, ha, hmem⟩ := List.mem_flatMap.mp hi
  obtain ⟨before, hnot⟩ := h a ha
  exact TwoPass.instrs_proper hnot (length_operand labels) i hmem

namespace Lawful

variable {as : List Step}

theorem not_refused_of_mem (h : Lawful as) {a : Step} (ha : a ∈ as) :
    ∃ before, ¬ Refused before a := by
  obtain ⟨before, after, heq⟩ := List.append_of_mem ha
  exact ⟨before, h before a after heq⟩

/-- **A sweep over the second pass finds the instructions of all steps.** -/
theorem sweep_code (h : Lawful as) :
    Instr.sweep (code as) = (layout 0 as).flatMap fun entry =>
      Instr.located entry.1 (entry.2.instrs (operand (table as))) := by
  rw [code, sweep_flatMap_bytesOf fun a ha => h.not_refused_of_mem ha,
    located_flatMap_instrs (length_operand (table as))]

/-! ### Labels of steps that can be taken in turn -/

theorem le_of_mem_table (h : Lawful as) {entry : String × Nat} (hmem : entry ∈ table as) :
    entry.2 ≤ maxOffset := by
  obtain ⟨before, after, heq, hoffset⟩ := mem_layout.mp (mem_table.mp hmem)
  obtain ⟨-, hle⟩ := not_or.mp (h before _ after heq)
  rw [hoffset, Nat.zero_add]
  exact Nat.not_lt.mp hle

/-- A label is placed only once. -/
theorem lookup_of_mem_table (h : Lawful as) {entry : String × Nat} (hmem : entry ∈ table as) :
    (table as).lookup entry.1 = some entry.2 := by
  obtain ⟨name, offset⟩ := entry
  obtain ⟨before, after, heq, hoffset⟩ := mem_layout.mp (mem_table.mp hmem)
  obtain ⟨hnew, -⟩ := not_or.mp (h before _ after heq)
  have hbefore := lookup_table_eq_none_iff.mpr hnew
  rw [heq, List.append_cons, table_append, List.lookup_append, table_place,
    lookup_append_self _ hbefore, hoffset, Nat.zero_add]
  rfl

end Lawful

theorem mem_table_of_lookup {as : List Step} {name : String} {offset : Nat}
    (h : (table as).lookup name = some offset) : (name, offset) ∈ table as := by
  obtain ⟨before, after, heq, -⟩ := List.lookup_eq_some_iff.mp h
  rw [heq]
  simp

theorem layout_pairwise (offset : Nat) (as : List Step) :
    (layout offset as).Pairwise fun x y => x.1 + x.2.width ≤ y.1 := by
  induction as generalizing offset with
  | nil => exact List.Pairwise.nil
  | cons a as ih =>
    rw [layout, List.pairwise_cons]
    refine ⟨?_, ih _⟩
    rintro ⟨pc, b⟩ hmem
    obtain ⟨before, after, -, hpc⟩ := mem_layout.mp hmem
    simp only
    omega

theorem table_pairwise (as : List Step) : (table as).Pairwise fun x y => x.2 < y.2 := by
  refine List.Pairwise.filterMap _ ?_ (layout_pairwise 0 as)
  rintro ⟨pc, a⟩ ⟨pc', a'⟩ hle ⟨name, offset⟩ hx ⟨name', offset'⟩ hy
  have hwidth := width_pos a
  obtain ⟨-, rfl⟩ : a.label? = some name ∧ pc = offset := by simpa using hx
  obtain ⟨-, rfl⟩ : a'.label? = some name' ∧ pc' = offset' := by simpa using hy
  simp only at hle ⊢
  omega

end TwoPass

namespace Session

/-! ### The code of a session -/

namespace Linked

variable {as : List Step} {s : Session}

/-- Where a step refers to a label, the code has a `PUSH3` of the label's operand and a jump. -/
theorem jump_at (h : Linked as s) {pc : Nat} {a : Step} {name : String}
    (hmem : (pc, a) ∈ layout 0 as) (ha : a.reference? = some name) :
    ∃ o : Opcode, (o = .JUMP ∨ o = .JUMPI) ∧
      (s.code.toList.drop pc).take 5 = 0x62 :: operand (table as) name ++ [o.byte] := by
  obtain ⟨before, after, heq, rfl⟩ := mem_layout.mp hmem
  obtain ⟨o, ho, hbytes⟩ := bytesOf_of_reference ha
  have hcode : s.code.toList = before.flatMap (bytesOf (table as)) ++
      (0x62 :: operand (table as) name ++ [o.byte] ++ after.flatMap (bytesOf (table as))) := by
    have hflat : ∀ labels, as.flatMap (bytesOf labels) = before.flatMap (bytesOf labels) ++
        (bytesOf labels a ++ after.flatMap (bytesOf labels)) := by
      intro labels
      rw [heq, List.flatMap_append, List.flatMap_cons]
    rw [h.code, TwoPass.code, hflat, hbytes]
  have hbefore : (before.flatMap (bytesOf (table as))).length = 0 + extent before := by
    rw [length_flatMap_bytesOf, Nat.zero_add]
  have hjump : (0x62 :: operand (table as) name ++ [o.byte]).length = 5 := by
    simp [length_operand]
  refine ⟨o, ho, ?_⟩
  rw [hcode, ← hbefore, List.drop_left, ← hjump, List.take_left]

/-- Behind the `PUSH3` of a reference stands the operand of its label. -/
theorem operand_at (h : Linked as s) {pc : Nat} {a : Step} {name : String}
    (hmem : (pc, a) ∈ layout 0 as) (ha : a.reference? = some name) :
    (s.code.toList.drop (pc + 1)).take 3 = operand (table as) name := by
  obtain ⟨o, -, hjump⟩ := h.jump_at hmem ha
  have htail := congrArg (fun bytes => (bytes.drop 1).take 3) hjump
  simp only [List.drop_take, List.drop_drop, List.take_take, List.cons_append, List.drop_succ_cons,
    List.drop_zero] at htail
  rw [← length_operand (table as) name, List.take_left] at htail
  simpa [length_operand] using htail

theorem mem_sweep_of_reference (h : Linked as s) {pc : Nat} {a : Step} {name : String}
    (hmem : (pc, a) ∈ layout 0 as) (ha : a.reference? = some name) :
    (pc, Instr.push (operand (table as) name)) ∈ Instr.sweep s.code.toList := by
  rw [h.code, h.lawful.sweep_code]
  refine List.mem_flatMap.mpr ⟨(pc, a), hmem, ?_⟩
  rcases a with label | (o | v | n | n | target | target)
  case perform.jump | perform.jumpi =>
    obtain rfl : target = some name := ha
    exact List.mem_cons_self
  all_goals exact absurd ha (by simp [Step.reference?, Operation.target?])

theorem mem_sweep_of_place (h : Linked as s) {entry : String × Nat} (hmem : entry ∈ table as) :
    (entry.2, Instr.op .JUMPDEST) ∈ Instr.sweep s.code.toList := by
  rw [h.code, h.lawful.sweep_code]
  exact List.mem_flatMap.mpr ⟨(entry.2, .place entry.1), mem_table.mp hmem, List.mem_cons_self⟩

theorem lt_size_of_mem_table (h : Linked as s) {entry : String × Nat} (hmem : entry ∈ table as) :
    entry.2 < s.size := by
  obtain ⟨before, after, heq, hoffset⟩ := mem_layout.mp (mem_table.mp hmem)
  have hwidth := width_pos (.place entry.1)
  rw [h.size, heq, extent_append, extent_cons, hoffset]
  omega

end Linked

/-- **The sweep inverts assembly, patches included.** It finds the instructions of the steps that
were taken, each where it was written; a jump to a name pushes the offset of its label, if that is
placed by now. It finds no byte of data. -/
theorem sweep_attempt (as : List Step) :
    Instr.sweep (attempt {} as).1.code.toList =
        ((journal {} as).flatMap fun entry => Instr.located entry.1
          (entry.2.instrs (operand (attempt {} as).1.labels.defined.toList))) ∧
      ∀ pc b, (pc, Instr.data b) ∉ Instr.sweep (attempt {} as).1.code.toList := by
  have hlinked := linked_attempt as
  have hjournal : journal {} as = layout 0 (taken {} as) := linked_nil.journal as
  have hsweep := hlinked.lawful.sweep_code
  rw [← hlinked.code, ← hlinked.defined, ← hjournal] at hsweep
  refine ⟨hsweep, fun pc b hdata => ?_⟩
  rw [hsweep] at hdata
  obtain ⟨entry, -, hmem⟩ := List.mem_flatMap.mp hdata
  exact data_not_mem_instrs b entry.2 _ (Instr.mem_of_mem_located hmem)

end Session

end BytecodeAssembler
