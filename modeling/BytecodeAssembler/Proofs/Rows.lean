import BytecodeAssembler.Build
import BytecodeAssembler.Proofs.Destinations
import BytecodeAssembler.Proofs.Relocation

/-!
# Lines and the code they appended

The span of a line is recorded while operands behind it still wait to be written. But the widths of
its steps do not depend on them, so the spans are those of a layout (`applyAll_rows`):

* they lie one behind another from the start of the code to its end (`tiles_rowsFrom`);
* each holds the bytes of its line's steps in the second pass, whose operands are the final ones
  (`bytes_of_mem_rowsFrom`).

`Accounts rows code labels` collects what rows say of finished code.
-/

namespace BytecodeAssembler

open TwoPass

/-! ### Statements -/

/-- The instructions of a statement, given what a jump to a name pushes: a `JUMPDEST` for its label,
and then those of its operation. -/
def Statement.instrs (operand : String → List UInt8) (st : Statement) : List Instr :=
  (if st.label.isSome then [.op .JUMPDEST] else []) ++
    st.operation.toList.flatMap fun o => (Step.perform o).instrs operand

namespace Statement

theorem flatMap_instrs_steps (operand : String → List UInt8) (st : Statement) :
    st.steps.flatMap (Step.instrs operand) = st.instrs operand := by
  obtain ⟨label, operation⟩ := st
  cases label <;> cases operation <;> simp [steps, instrs, Step.instrs]

theorem extent_steps_eq_zero_iff (st : Statement) : extent st.steps = 0 ↔ st.isEmpty := by
  obtain ⟨label, operation⟩ := st
  cases label with
  | some name => simp [steps, isEmpty, Step.width]
  | none =>
    cases operation with
    | none => simp [steps, isEmpty]
    | some o =>
      have hwidth := width_pos (.perform o)
      simp [steps, isEmpty]
      omega

end Statement

/-- The steps of lines, one line after another. -/
def stepsOf (lines : List SourceLine) : List Step :=
  (lines.map SourceLine.statement).flatMap Statement.steps

@[simp] theorem stepsOf_nil : stepsOf [] = [] := rfl

@[simp] theorem stepsOf_cons (line : SourceLine) (lines : List SourceLine) :
    stepsOf (line :: lines) = line.statement.steps ++ stepsOf lines := rfl

@[simp] theorem stepsOf_append (lines lines' : List SourceLine) :
    stepsOf (lines ++ lines') = stepsOf lines ++ stepsOf lines' := by
  simp [stepsOf]

/-! ### Rows -/

/-- The rows of lines one after another from an offset on. -/
def rowsFrom : Nat → List SourceLine → List Row
  | _, [] => []
  | offset, line :: lines =>
    ⟨line, offset, offset + extent line.statement.steps⟩ ::
      rowsFrom (offset + extent line.statement.steps) lines

/-- **Applying lines records the rows of their layout.** -/
theorem applyAll_rows {as : List Step} {s t : Session} {rows rows' : Array Row}
    {lines : List SourceLine} (h : Session.Linked as s)
    (happly : applyAll s rows lines = .ok (t, rows')) :
    rows'.toList = rows.toList ++ rowsFrom s.size lines := by
  induction lines generalizing as s rows with
  | nil =>
    obtain ⟨-, rfl⟩ := Prod.mk.inj (Except.ok.inj happly)
    exact (List.append_nil _).symm
  | cons line lines ih =>
    rcases hline : line.statement.apply s with ⟨u, _ | fault⟩
    · have hlinked := h.run hline
      have hsize : u.size = s.size + extent line.statement.steps := by
        rw [hlinked.size, h.size, extent_append]
      simp only [applyAll, hline] at happly
      rw [ih hlinked happly, Array.toList_push, List.append_assoc, hsize]
      rfl
    · simp only [applyAll, hline] at happly
      cases happly

/-- What is said of the lines of rows is said of the lines. -/
theorem map_rowsFrom {β : Type} (f : SourceLine → β) (offset : Nat) (lines : List SourceLine) :
    ((rowsFrom offset lines).map fun row => f row.line) = lines.map f := by
  induction lines generalizing offset with
  | nil => rfl
  | cons line lines ih => rw [rowsFrom, List.map_cons, ih, List.map_cons]

theorem map_line_rowsFrom (offset : Nat) (lines : List SourceLine) :
    (rowsFrom offset lines).map Row.line = lines :=
  (map_rowsFrom id offset lines).trans (List.map_id lines)

/-- A row lies behind the rows of the lines before it. -/
theorem exists_of_mem_rowsFrom {offset : Nat} {lines : List SourceLine} {row : Row}
    (h : row ∈ rowsFrom offset lines) :
    ∃ before after, lines = before ++ row.line :: after ∧
      row.start = offset + extent (stepsOf before) ∧
      row.stop = row.start + extent row.line.statement.steps := by
  induction lines generalizing offset with
  | nil => cases h
  | cons line lines ih =>
    rcases List.mem_cons.mp h with rfl | h
    · exact ⟨[], lines, rfl, rfl, rfl⟩
    · obtain ⟨before, after, heq, hstart, hstop⟩ := ih h
      refine ⟨line :: before, after, by rw [heq, List.cons_append], ?_, hstop⟩
      rw [hstart, stepsOf_cons, extent_append, Nat.add_assoc]

/-! ### Tilings -/

/-- Rows of which the first starts at an offset, each other one where the one before it stops, and
the last stops at another offset. -/
def Tiles : Nat → List Row → Nat → Prop
  | start, [], stop => start = stop
  | start, row :: rows, stop => row.start = start ∧ row.start ≤ row.stop ∧ Tiles row.stop rows stop

theorem tiles_rowsFrom (offset : Nat) (lines : List SourceLine) :
    Tiles offset (rowsFrom offset lines) (offset + extent (stepsOf lines)) := by
  induction lines generalizing offset with
  | nil => rfl
  | cons line lines ih =>
    have hrest := ih (offset + extent line.statement.steps)
    rw [Nat.add_assoc, ← extent_append, ← stepsOf_cons] at hrest
    exact ⟨rfl, Nat.le_add_right _ _, hrest⟩

namespace Tiles

variable {start stop : Nat} {rows : List Row}

theorem within (h : Tiles start rows stop) :
    start ≤ stop ∧ ∀ row ∈ rows, start ≤ row.start ∧ row.start ≤ row.stop ∧ row.stop ≤ stop := by
  induction rows generalizing start with
  | nil => exact ⟨Nat.le_of_eq h, by simp⟩
  | cons first rows ih =>
    obtain ⟨rfl, hfirst, hrest⟩ := h
    obtain ⟨hle, hrows⟩ := ih hrest
    refine ⟨hfirst.trans hle, List.forall_mem_cons.mpr ⟨⟨le_rfl, hfirst, hle⟩, ?_⟩⟩
    intro row hrow
    obtain ⟨hlow, hrow⟩ := hrows row hrow
    exact ⟨hfirst.trans hlow, hrow⟩

/-- **Each offset between the two is in just one row.** -/
theorem existsUnique (h : Tiles start rows stop) {k : Nat} (hlow : start ≤ k) (hhigh : k < stop) :
    ∃! i : Nat, ∃ row, rows[i]? = some row ∧ row.start ≤ k ∧ k < row.stop := by
  induction rows generalizing start with
  | nil =>
    obtain rfl : start = stop := h
    omega
  | cons first rows ih =>
    obtain ⟨rfl, -, hrest⟩ := h
    by_cases hfirst : k < first.stop
    · -- the rows behind the first start where it stops
      refine ⟨0, ⟨first, rfl, hlow, hfirst⟩, ?_⟩
      rintro (_ | i) ⟨row, hrow, hstart, -⟩
      · rfl
      · obtain ⟨hbehind, -⟩ := hrest.within.2 row (List.mem_of_getElem? hrow)
        omega
    · obtain ⟨i, hi, hunique⟩ := ih hrest (Nat.not_lt.mp hfirst)
      refine ⟨i + 1, hi, ?_⟩
      rintro (_ | j) ⟨row, hrow, hstart, hstop⟩
      · obtain rfl : first = row := Option.some.inj hrow
        exact absurd hstop hfirst
      · rw [hunique j ⟨row, hrow, hstart, hstop⟩]

end Tiles

/-! ### The bytes of a row -/

section Bytes

variable {lines : List SourceLine} {s : Session} (h : Session.Linked (stepsOf lines) s) {row : Row}
  (hrow : row ∈ rowsFrom 0 lines)
include hrow

theorem mem_stepsOf_of_mem_rowsFrom : ∀ a ∈ row.line.statement.steps, a ∈ stepsOf lines := by
  obtain ⟨before, after, heq, -⟩ := exists_of_mem_rowsFrom hrow
  intro a ha
  rw [heq, stepsOf_append, stepsOf_cons]
  exact List.mem_append_right _ (List.mem_append_left _ ha)

include h

/-- **A row's bytes are those of its line**, with the operands that were written later. -/
theorem bytes_of_mem_rowsFrom :
    Listing.Row.bytes s.code row =
      row.line.statement.steps.flatMap (bytesOf (table (stepsOf lines))) := by
  obtain ⟨before, after, heq, hstart, hstop⟩ := exists_of_mem_rowsFrom hrow
  generalize hlabels : table (stepsOf lines) = labels
  have hcode : s.code.toList = (stepsOf before).flatMap (bytesOf labels) ++
      (row.line.statement.steps.flatMap (bytesOf labels) ++
        (stepsOf after).flatMap (bytesOf labels)) := by
    rw [h.code, TwoPass.code, hlabels, heq, stepsOf_append, stepsOf_cons, List.flatMap_append,
      List.flatMap_append]
  have hbefore : ((stepsOf before).flatMap (bytesOf labels)).length = row.start := by
    rw [length_flatMap_bytesOf, hstart, Nat.zero_add]
  have hline : (row.line.statement.steps.flatMap (bytesOf labels)).length =
      row.stop - row.start := by
    rw [length_flatMap_bytesOf, hstop, Nat.add_sub_cancel_left]
  rw [Listing.Row.bytes, Array.toList_extract, List.extract_eq_take_drop, hcode, ← hbefore,
    List.drop_left, hbefore, ← hline, List.take_left]

theorem sweep_of_mem_rowsFrom :
    Instr.sweep (Listing.Row.bytes s.code row) =
      Instr.located 0 (row.line.statement.instrs (operand s.labels.defined.toList)) := by
  rw [bytes_of_mem_rowsFrom h hrow, ← Statement.flatMap_instrs_steps, h.defined]
  exact sweep_flatMap_bytesOf
    (fun a ha => h.lawful.not_refused_of_mem (mem_stepsOf_of_mem_rowsFrom hrow a ha)) _

end Bytes

/-! ### Finished code -/

/-- What rows say of finished code and its labels. -/
structure Accounts (rows : List Row) (code : Array UInt8) (labels : List (String × Nat)) :
    Prop where
  /-- The spans lie one behind another, from the start of the code to its end. -/
  tiles : Tiles 0 rows code.size
  /-- Each byte is in just one span. -/
  once : ∀ k < code.size, ∃! i : Nat, ∃ row, rows[i]? = some row ∧ row.start ≤ k ∧ k < row.stop
  /-- Each span is a part of the code. -/
  within : ∀ row ∈ rows, row.start ≤ row.stop ∧ row.stop ≤ code.size
  /-- A span has bytes unless the statement of its line is empty. -/
  occupied : ∀ row ∈ rows, row.start < row.stop ↔ ¬ row.line.statement.isEmpty
  /-- The bytes of a span are on their own the instructions of the line. -/
  decoded : ∀ row ∈ rows, Instr.sweep (Listing.Row.bytes code row) =
    Instr.located 0 (row.line.statement.instrs (operand labels))
  /-- A jump of a line to a name pushes the offset of a label. -/
  resolved : ∀ row ∈ rows, ∀ name,
    row.line.statement.operation.bind Operation.target? = some name →
    ∃ offset, labels.lookup name = some offset

theorem lt_iff_of_mem_rowsFrom {offset : Nat} {lines : List SourceLine} {row : Row}
    (hrow : row ∈ rowsFrom offset lines) :
    row.start < row.stop ↔ ¬ row.line.statement.isEmpty := by
  obtain ⟨before, after, -, -, hstop⟩ := exists_of_mem_rowsFrom hrow
  rw [← Statement.extent_steps_eq_zero_iff]
  omega

/-- **The rows of lines account for the code that their steps led to**, once nothing waits in it. -/
theorem accounts_rowsFrom {lines : List SourceLine} {s : Session}
    (h : Session.Linked (stepsOf lines) s) (hpending : s.labels.pending = #[]) :
    Accounts (rowsFrom 0 lines) s.code s.labels.defined.toList := by
  have htiles : Tiles 0 (rowsFrom 0 lines) s.code.size := by
    have hsize : s.code.size = extent (stepsOf lines) := h.size
    have hlayout := tiles_rowsFrom 0 lines
    rwa [Nat.zero_add, ← hsize] at hlayout
  have hwithin : ∀ row ∈ rowsFrom 0 lines, row.start ≤ row.stop ∧ row.stop ≤ s.code.size :=
    fun row hrow => (htiles.within.2 row hrow).2
  refine ⟨htiles, fun k hk => htiles.existsUnique (Nat.zero_le k) hk, hwithin,
    fun row hrow => lt_iff_of_mem_rowsFrom hrow, fun row hrow => sweep_of_mem_rowsFrom h hrow, ?_⟩
  intro row hrow name htarget
  obtain ⟨o, hoperation, htarget⟩ := Option.bind_eq_some_iff.mp htarget
  have hmem : Step.perform o ∈ stepsOf lines :=
    mem_stepsOf_of_mem_rowsFrom hrow _ (by simp [Statement.steps, hoperation])
  obtain ⟨before, after, heq⟩ := List.append_of_mem hmem
  rw [h.defined]
  exact h.lookup_of_pending_nil hpending (mem_layout.mpr ⟨before, after, heq, rfl⟩) htarget

end BytecodeAssembler
