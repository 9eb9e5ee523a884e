import BytecodeAssembler.Proofs.Disassembly

/-!
# Jumps land

A jump to a label pushes an offset at which the sweep finds a `JUMPDEST` (`Lands`). That holds for
every reference whose label is placed, in every state of a session, and so for all references once
the code is finished (`jumps_land`).
-/

namespace BytecodeAssembler

open TwoPass

/-- The push at `pc` holds, in three bytes, the offset `target`, where a `JUMPDEST` starts. -/
def Lands (code : List UInt8) (pc target : Nat) : Prop :=
  (target, Instr.op .JUMPDEST) ∈ Instr.sweep code ∧
    ∃ immediate, (pc, Instr.push immediate) ∈ Instr.sweep code ∧ immediate.length = 3 ∧
      Bytes.valueOf immediate = target

namespace TwoPass

theorem lookup_append_of_some {labels : List (String × Nat)} {name : String} {offset : Nat}
    (h : labels.lookup name = some offset) (more : List (String × Nat)) :
    (labels ++ more).lookup name = some offset := by
  rw [List.lookup_append, h]
  rfl

/-- An offset that a label can have is not cut off by the width of an operand. -/
theorem valueOf_operand {labels : List (String × Nat)} {name : String} {offset : Nat}
    (h : labels.lookup name = some offset) (hle : offset ≤ maxOffset) :
    Bytes.valueOf (operand labels name) = offset := by
  have hlt : offset < 256 ^ 3 := by
    rw [maxOffset] at hle
    omega
  rw [operand, h]
  exact (Bytes.valueOf_bigEndian 3 offset).trans (Nat.mod_eq_of_lt hlt)

end TwoPass

namespace Session

/-! ### Finished code -/

theorem runtime_eq_ok {s : Session} {code : Array UInt8} (h : s.runtime = .ok code) :
    s.labels.pending = #[] ∧ code = s.code := by
  rw [runtime] at h
  cases hresolved : s.labels.checkResolved with
  | error fault => simp [hresolved] at h
  | ok =>
    rw [hresolved] at h
    refine ⟨?_, by simpa using h.symm⟩
    rw [Labels.checkResolved] at hresolved
    split at hresolved
    · next hempty => exact Array.isEmpty_iff.mp hempty
    · cases hresolved

theorem finalize_eq_ok {s : Session} {d : Deployment} (h : s.finalize = .ok d) :
    s.runtime = .ok d.runtime ∧ Loader.build d.runtime.size = .ok d.loader := by
  rw [finalize] at h
  cases hruntime : s.runtime with
  | error fault => simp [hruntime] at h
  | ok code =>
    rw [hruntime] at h
    cases hloader : Loader.build code.size with
    | error fault => simp [hloader] at h
    | ok loader =>
      obtain rfl : ⟨loader, code⟩ = d := by simpa [hloader] using h
      exact ⟨rfl, hloader⟩

namespace Linked

variable {as : List Step} {s : Session}

/-- If nothing waits then every label that is referenced is placed. -/
theorem lookup_of_pending_nil (h : Linked as s) (hpending : s.labels.pending = #[]) {pc : Nat}
    {a : Step} (hmem : (pc, a) ∈ layout 0 as) {name : String} (ha : a.reference? = some name) :
    ∃ offset, (table as).lookup name = some offset := by
  have hwaiting : waiting as = [] := by rw [← h.pending, hpending]
  have hreference : (name, pc + 1) ∈ references 0 as :=
    List.mem_filterMap.mpr ⟨(pc, a), hmem, by simp [ha]⟩
  have hsome := List.filter_eq_nil_iff.mp hwaiting _ hreference
  cases hlookup : (table as).lookup name with
  | none => simp [hlookup] at hsome
  | some offset => exact ⟨offset, rfl⟩

theorem lands (h : Linked as s) {pc : Nat} {a : Step} (hmem : (pc, a) ∈ layout 0 as)
    {name : String} (ha : a.reference? = some name) {offset : Nat}
    (hname : (table as).lookup name = some offset) : Lands s.code.toList pc offset := by
  have hentry := mem_table_of_lookup hname
  have hle : offset ≤ maxOffset := h.lawful.le_of_mem_table hentry
  exact ⟨h.mem_sweep_of_place hentry, operand (table as) name, h.mem_sweep_of_reference hmem ha,
    length_operand _ _, valueOf_operand hname hle⟩

/-- The offset of a label is the same in every later state. -/
theorem offset?_attempt (h : Linked as s) {name : String} {offset : Nat}
    (hname : s.labels.offset? name = some offset) (bs : List Step) :
    (s.attempt bs).1.labels.offset? name = some offset := by
  rw [h.offset?] at hname
  rw [(h.attempt bs).offset?, table_append]
  exact lookup_append_of_some hname _

end Linked

/-- **Linked jumps land on jump destinations.** In every state of a session:

* labels lie behind one another, in the code and within three bytes;
* the offset of a label is where the sweep finds a `JUMPDEST`, and inside no other instruction;
* a reference whose label is placed holds just that offset;
* the offset of a label is the same in every later state.

So in code that is finished every reference holds the offset of a `JUMPDEST`. -/
theorem jumps_land (as : List Step) :
    let s := (attempt {} as).1
    (s.labels.defined.toList.Pairwise fun x y => x.2 < y.2) ∧
      (∀ entry ∈ s.labels.defined.toList,
        s.labels.offset? entry.1 = some entry.2 ∧ entry.2 < s.size ∧ entry.2 ≤ maxOffset ∧
          (entry.2, Instr.op .JUMPDEST) ∈ Instr.sweep s.code.toList ∧
          ∀ i ∈ Instr.sweep s.code.toList, i.1 < entry.2 → i.1 + i.2.size ≤ entry.2) ∧
      (∀ entry ∈ journal {} as, ∀ name offset, entry.2.reference? = some name →
        s.labels.offset? name = some offset →
          Lands s.code.toList entry.1 offset ∧
            Bytes.valueOf ((s.code.toList.drop (entry.1 + 1)).take 3) = offset) ∧
      (∀ bs name offset, s.labels.offset? name = some offset →
        (s.attempt bs).1.labels.offset? name = some offset) ∧
      (∀ code, s.runtime = .ok code → ∀ entry ∈ journal {} as, ∀ name,
        entry.2.reference? = some name →
          ∃ offset, s.labels.offset? name = some offset ∧ Lands code.toList entry.1 offset) ∧
      ∀ d, s.finalize = .ok d → ∀ entry ∈ journal {} as, ∀ name,
        entry.2.reference? = some name →
          ∃ offset, s.labels.offset? name = some offset ∧
            Lands d.runtime.toList entry.1 offset := by
  intro s
  have hlinked : Linked (taken {} as) s := linked_attempt as
  have hjournal : journal {} as = layout 0 (taken {} as) := linked_nil.journal as
  have hruntime : ∀ code, s.runtime = .ok code → ∀ entry ∈ journal {} as, ∀ name,
      entry.2.reference? = some name →
        ∃ offset, s.labels.offset? name = some offset ∧ Lands code.toList entry.1 offset := by
    rintro code hcode ⟨pc, a⟩ hentry name ha
    rw [hjournal] at hentry
    obtain ⟨hpending, rfl⟩ := runtime_eq_ok hcode
    obtain ⟨offset, hname⟩ := hlinked.lookup_of_pending_nil hpending hentry ha
    exact ⟨offset, (hlinked.offset? name).trans hname, hlinked.lands hentry ha hname⟩
  refine ⟨?_, ?_, ?_, ?_, hruntime, ?_⟩
  · rw [hlinked.defined]
    exact table_pairwise _
  · intro entry hentry
    rw [hlinked.defined] at hentry
    have hdest := hlinked.mem_sweep_of_place hentry
    refine ⟨?_, hlinked.lt_size_of_mem_table hentry, hlinked.lawful.le_of_mem_table hentry, hdest,
      fun i hi hlt => Instr.end_le_of_lt hi hdest hlt⟩
    rw [hlinked.offset?, hlinked.lawful.lookup_of_mem_table hentry]
  · rintro ⟨pc, a⟩ hentry name offset ha hname
    rw [hjournal] at hentry
    rw [hlinked.offset?] at hname
    have hle := hlinked.lawful.le_of_mem_table (mem_table_of_lookup hname)
    refine ⟨hlinked.lands hentry ha hname, ?_⟩
    rw [hlinked.operand_at hentry ha, valueOf_operand hname hle]
  · intro bs name offset hname
    exact hlinked.offset?_attempt hname bs
  · intro d hd
    exact hruntime d.runtime (finalize_eq_ok hd).1

/-- A jump forwards and a jump backwards to the label at offset 7, behind a push of the byte of
`JUMPDEST`. -/
theorem jumps_land_forwards_and_backwards :
    let s := (attempt {} [.perform (.jump (some "mid")), .perform (.push ⟨[0, 0x5B]⟩), .place "mid",
      .perform (.jumpi (some "mid"))]).1
    let code : Array UInt8 := #[0x62, 0, 0, 7, 0x56, 0x60, 0x5B, 0x5B, 0x62, 0, 0, 7, 0x57]
    s.runtime = .ok code ∧ Lands s.code.toList 0 7 ∧ Lands code.toList 8 7 ∧
      (s.attempt [.place "mid"]).1.labels.offset? "mid" = some 7 := by
  intro s code
  have hmid : s.labels.offset? "mid" = some 7 := by decide
  have hruntime : s.runtime = .ok code := by decide
  obtain ⟨-, -, hplaced, hlater, hfinished, -⟩ := jumps_land [.perform (.jump (some "mid")),
    .perform (.push ⟨[0, 0x5B]⟩), .place "mid", .perform (.jumpi (some "mid"))]
  refine ⟨hruntime, ?_, ?_, hlater [.place "mid"] "mid" 7 hmid⟩
  · exact (hplaced (0, .perform (.jump (some "mid"))) (by decide) "mid" 7 rfl hmid).1
  · obtain ⟨offset, hoffset, hlands⟩ :=
      hfinished code hruntime (8, .perform (.jumpi (some "mid"))) (by decide) "mid" rfl
    obtain rfl : 7 = offset := Option.some.inj (hmid.symm.trans hoffset)
    exact hlands

end Session

end BytecodeAssembler
