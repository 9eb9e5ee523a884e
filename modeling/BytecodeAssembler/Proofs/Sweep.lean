import Mathlib.Data.List.Pairwise
import Mathlib.Tactic.Linarith
import BytecodeAssembler.Instr.Sweep

/-!
# The sweep takes instructions apart where they were put together

* `Proper i` — the bytes of `i` are read as `i`, whatever follows them (`sweepFrom_toBytes`);
* `located pc is` — instructions one after another, each with its offset;
* `sweepFrom_flatten`: the sweep over the bytes of proper instructions finds these instructions, and
  goes on behind them.

On any code at all the instructions that the sweep finds lie behind one another (`sweep_pairwise`),
so that an offset where one of them starts is inside none of the others.
-/

namespace BytecodeAssembler

namespace Opcode

theorem ofByte?_byte (o : Opcode) : ofByte? o.byte = some o := by
  cases o <;> decide +kernel

/-- No operation has a byte of one of the families. -/
theorem byte_outside_families (o : Opcode) : o.byte.toNat < 0x60 ∨ 0x9F < o.byte.toNat := by
  cases o <;> decide

end Opcode

namespace Instr

/-! ### Proper instructions -/

/-- An instruction whose bytes are read as that instruction, whatever follows them. -/
def Proper : Instr → Prop
  | op _ => True
  | push immediate => 1 ≤ immediate.length ∧ immediate.length ≤ maxPush
  | dup n => n.toNat < stackWindow
  | swap n => 1 ≤ n.toNat ∧ n.toNat ≤ stackWindow
  | data b => (b.toNat < 0x60 ∨ 0x9F < b.toNat) ∧ Opcode.ofByte? b = none

theorem ofHead_outside_families {b : UInt8} (hb : b.toNat < 0x60 ∨ 0x9F < b.toNat)
    (rest : List UInt8) :
    ofHead b rest = match Opcode.ofByte? b with
      | some o => op o
      | none => data b := by
  have hpush : ¬ (0x60 ≤ b ∧ b ≤ 0x7F) := by
    simp only [UInt8.le_iff_toNat_le, UInt8.reduceToNat]
    omega
  have hdup : ¬ (0x80 ≤ b ∧ b ≤ 0x8F) := by
    simp only [UInt8.le_iff_toNat_le, UInt8.reduceToNat]
    omega
  have hswap : ¬ (0x90 ≤ b ∧ b ≤ 0x9F) := by
    simp only [UInt8.le_iff_toNat_le, UInt8.reduceToNat]
    omega
  unfold ofHead
  exact (if_neg hpush).trans ((if_neg hdup).trans (if_neg hswap))

theorem ofHead_op (o : Opcode) (rest : List UInt8) : ofHead o.byte rest = op o := by
  rw [ofHead_outside_families o.byte_outside_families, Opcode.ofByte?_byte]

theorem ofHead_data {b : UInt8} (h : (data b).Proper) (rest : List UInt8) :
    ofHead b rest = data b := by
  rw [ofHead_outside_families h.1, h.2]

theorem toNat_opcode_push {immediate : List UInt8} (h : (push immediate).Proper) :
    (push immediate).opcode.toNat = 0x5F + immediate.length := by
  obtain ⟨hpos, hle⟩ := h
  rw [maxPush] at hle
  have hbase : push1.toNat = 0x60 := rfl
  rw [opcode, UInt8.toNat_add, UInt8.toNat_ofNat', hbase]
  omega

theorem ofHead_push {immediate : List UInt8} (h : (push immediate).Proper) (rest : List UInt8) :
    ofHead (push immediate).opcode (immediate ++ rest) = push immediate := by
  have hb := toNat_opcode_push h
  obtain ⟨hpos, hle⟩ := h
  rw [maxPush] at hle
  have hrange : 0x60 ≤ (push immediate).opcode ∧ (push immediate).opcode ≤ 0x7F := by
    simp only [UInt8.le_iff_toNat_le, UInt8.reduceToNat]
    omega
  have hwidth : (push immediate).opcode.toNat - 0x5F = immediate.length := by omega
  unfold ofHead
  rw [if_pos hrange]
  simp only [hwidth, List.take_left', if_true]

theorem toNat_opcode_dup {n : UInt8} (h : (dup n).Proper) :
    (dup n).opcode.toNat = 0x80 + n.toNat := by
  replace h : n.toNat < 16 := h
  have hbase : dup1.toNat = 0x80 := rfl
  rw [opcode, UInt8.toNat_add, hbase]
  omega

theorem ofHead_dup {n : UInt8} (h : (dup n).Proper) (rest : List UInt8) :
    ofHead (dup n).opcode rest = dup n := by
  have hb := toNat_opcode_dup h
  replace h : n.toNat < 16 := h
  have hback : (dup n).opcode - dup1 = n := by
    rw [opcode, UInt8.add_comm, UInt8.add_sub_cancel]
  unfold ofHead
  rw [if_neg, if_pos, hback]
  all_goals
    simp only [UInt8.le_iff_toNat_le, UInt8.reduceToNat]
    omega

theorem toNat_opcode_swap {n : UInt8} (h : (swap n).Proper) :
    (swap n).opcode.toNat = 0x8F + n.toNat := by
  obtain ⟨hpos, hle⟩ := h
  rw [stackWindow] at hle
  have hsub : (n - 1).toNat = n.toNat - 1 := by
    rw [UInt8.toNat_sub_of_le _ _ (by simpa [UInt8.le_iff_toNat_le] using hpos)]
    rfl
  have hbase : swap1.toNat = 0x90 := rfl
  rw [opcode, UInt8.toNat_add, hsub, hbase]
  omega

theorem ofHead_swap {n : UInt8} (h : (swap n).Proper) (rest : List UInt8) :
    ofHead (swap n).opcode rest = swap n := by
  have hb := toNat_opcode_swap h
  obtain ⟨hpos, hle⟩ := h
  rw [stackWindow] at hle
  have hback : (swap n).opcode - swap1 + 1 = n := by
    rw [opcode, UInt8.add_comm swap1, UInt8.add_sub_cancel, UInt8.sub_add_cancel]
  unfold ofHead
  rw [if_neg, if_neg, if_pos, hback]
  all_goals
    simp only [UInt8.le_iff_toNat_le, UInt8.reduceToNat]
    omega

/-! ### The sweep over instructions put together -/

/-- Passing over an immediate. -/
theorem sweepFrom_skip (pc : Nat) (skipped rest : List UInt8) :
    sweepFrom pc skipped.length (skipped ++ rest) = sweepFrom (pc + skipped.length) 0 rest := by
  induction skipped generalizing pc with
  | nil => rfl
  | cons b skipped ih =>
    rw [List.length_cons, List.cons_append, sweepFrom, ih]
    congr 1
    omega

theorem sweepFrom_of_head {i : Instr} {b : UInt8} {tail rest : List UInt8}
    (hbytes : i.toBytes = b :: tail) (hhead : ofHead b (tail ++ rest) = i) (pc : Nat) :
    sweepFrom pc 0 (i.toBytes ++ rest) = (pc, i) :: sweepFrom (pc + i.size) 0 rest := by
  have hsize : i.size = tail.length + 1 := by rw [← length_toBytes, hbytes, List.length_cons]
  have hskip := sweepFrom_skip (pc + 1) tail rest
  rw [hbytes, List.cons_append, sweepFrom, hhead]
  simp only [hsize, Nat.add_sub_cancel]
  rw [hskip, Nat.add_right_comm, Nat.add_assoc]

theorem sweepFrom_toBytes {i : Instr} (h : i.Proper) (pc : Nat) (rest : List UInt8) :
    sweepFrom pc 0 (i.toBytes ++ rest) = (pc, i) :: sweepFrom (pc + i.size) 0 rest := by
  cases i with
  | op o => exact sweepFrom_of_head rfl (ofHead_op o _) pc
  | push immediate => exact sweepFrom_of_head rfl (ofHead_push h _) pc
  | dup n => exact sweepFrom_of_head rfl (ofHead_dup h _) pc
  | swap n => exact sweepFrom_of_head rfl (ofHead_swap h _) pc
  | data b => exact sweepFrom_of_head rfl (ofHead_data h _) pc

theorem size_pos (i : Instr) : 1 ≤ i.size := by
  cases i <;> simp [size]

/-- Instructions one after another from an offset on, each with its offset. -/
def located : Nat → List Instr → List (Nat × Instr)
  | _, [] => []
  | pc, i :: instrs => (pc, i) :: located (pc + i.size) instrs

/-- How many bytes instructions take together. -/
def span (instrs : List Instr) : Nat :=
  (instrs.map size).sum

@[simp] theorem flatten_nil : flatten [] = [] := rfl

@[simp] theorem flatten_cons (i : Instr) (instrs : List Instr) :
    flatten (i :: instrs) = i.toBytes ++ flatten instrs := rfl

@[simp] theorem flatten_append (is js : List Instr) :
    flatten (is ++ js) = flatten is ++ flatten js := by
  simp [flatten]

@[simp] theorem span_nil : span [] = 0 := rfl

@[simp] theorem span_cons (i : Instr) (instrs : List Instr) :
    span (i :: instrs) = i.size + span instrs := by
  simp [span]

theorem length_flatten (instrs : List Instr) : (flatten instrs).length = span instrs := by
  induction instrs with
  | nil => rfl
  | cons i instrs ih => rw [flatten_cons, List.length_append, length_toBytes, ih, span_cons]

theorem located_append (pc : Nat) (is js : List Instr) :
    located pc (is ++ js) = located pc is ++ located (pc + span is) js := by
  induction is generalizing pc with
  | nil => rfl
  | cons i is ih => simp [located, ih, Nat.add_assoc]

theorem mem_of_mem_located {pc : Nat} {instrs : List Instr} {entry : Nat × Instr}
    (h : entry ∈ located pc instrs) : entry.2 ∈ instrs := by
  induction instrs generalizing pc with
  | nil => simp [located] at h
  | cons i instrs ih =>
    rw [located, List.mem_cons] at h
    rcases h with rfl | h
    · exact List.mem_cons_self
    · exact List.mem_cons_of_mem _ (ih h)

theorem end_le_of_mem_located {pc : Nat} {instrs : List Instr} {entry : Nat × Instr}
    (h : entry ∈ located pc instrs) : entry.1 + entry.2.size ≤ pc + span instrs := by
  induction instrs generalizing pc with
  | nil => simp [located] at h
  | cons i instrs ih =>
    rw [located, List.mem_cons] at h
    rw [span_cons, ← Nat.add_assoc]
    rcases h with rfl | h
    · exact Nat.le_add_right _ _
    · exact ih h

/-- **The sweep inverts the encoding** of proper instructions, whatever follows them. -/
theorem sweepFrom_flatten {instrs : List Instr} (h : ∀ i ∈ instrs, i.Proper) (pc : Nat)
    (rest : List UInt8) :
    sweepFrom pc 0 (flatten instrs ++ rest) =
      located pc instrs ++ sweepFrom (pc + span instrs) 0 rest := by
  induction instrs generalizing pc with
  | nil => simp [located]
  | cons i instrs ih =>
    have hi : i.Proper := h i List.mem_cons_self
    have htail := ih fun j hj => h j (List.mem_cons_of_mem i hj)
    rw [flatten_cons, List.append_assoc, sweepFrom_toBytes hi, htail, span_cons, Nat.add_assoc]
    rfl

theorem sweep_flatten {instrs : List Instr} (h : ∀ i ∈ instrs, i.Proper) :
    sweep (flatten instrs) = located 0 instrs := by
  have hsweep := sweepFrom_flatten h 0 []
  simpa [sweep, sweepFrom] using hsweep

/-! ### Boundaries -/

theorem le_of_mem_sweepFrom {pc skip : Nat} {code : List UInt8} {entry : Nat × Instr}
    (h : entry ∈ sweepFrom pc skip code) : pc + skip ≤ entry.1 := by
  induction code generalizing pc skip with
  | nil => simp [sweepFrom] at h
  | cons b rest ih =>
    cases skip with
    | zero =>
      rw [sweepFrom, List.mem_cons] at h
      rcases h with rfl | h
      · exact le_rfl
      · have := ih h
        omega
    | succ skip =>
      rw [sweepFrom] at h
      have := ih h
      omega

theorem sweepFrom_pairwise (pc skip : Nat) (code : List UInt8) :
    (sweepFrom pc skip code).Pairwise fun x y => x.1 + x.2.size ≤ y.1 := by
  induction code generalizing pc skip with
  | nil => exact List.Pairwise.nil
  | cons b rest ih =>
    cases skip with
    | zero =>
      rw [sweepFrom, List.pairwise_cons]
      refine ⟨fun entry hentry => ?_, ih _ _⟩
      have hle := le_of_mem_sweepFrom hentry
      have hpos := size_pos (ofHead b rest)
      simp only
      omega
    | succ skip =>
      rw [sweepFrom]
      exact ih _ _

/-- **Instructions that the sweep finds lie behind one another.** -/
theorem sweep_pairwise (code : List UInt8) :
    (sweep code).Pairwise fun x y => x.1 + x.2.size ≤ y.1 :=
  sweepFrom_pairwise 0 0 code

/-- Of two different spans in a list of spans one behind another, one lies behind the other. -/
theorem apart_of_pairwise {α : Type} {start stop : α → Nat} {spans : List α}
    (h : spans.Pairwise fun x y => stop x ≤ start y) {x y : α} (hx : x ∈ spans) (hy : y ∈ spans)
    (hne : x ≠ y) : stop x ≤ start y ∨ stop y ≤ start x := by
  have : Std.Symm fun x y => stop x ≤ start y ∨ stop y ≤ start x := ⟨fun _ _ h => h.symm⟩
  exact (h.imp Or.inl).forall (R := fun x y => stop x ≤ start y ∨ stop y ≤ start x) hx hy hne

/-- An instruction that starts before another one also ends before it. -/
theorem end_le_of_lt {code : List UInt8} {x y : Nat × Instr} (hx : x ∈ sweep code)
    (hy : y ∈ sweep code) (hlt : x.1 < y.1) : x.1 + x.2.size ≤ y.1 := by
  have hne : x ≠ y := by
    rintro rfl
    exact lt_irrefl _ hlt
  rcases apart_of_pairwise (sweep_pairwise code) hx hy hne with hle | hle
  · exact hle
  · omega

end Instr

end BytecodeAssembler
