import Mathlib.Data.List.TakeWhile
import BytecodeAssembler.Proofs.Tiling

/-!
# What appended bytes change in a sweep

An instruction that bytes start with stays the same whatever is appended to them, unless it is a
push that is cut off (`ofHead_append`): that one may be completed. So the part of a sweep before its
first push that is cut off (`untilCutOff`) stands in front of the sweep over any longer code, and
the sweep over the longer code goes on behind it (`sweep_append`).

Two pieces of code are taken apart one by one as they are together, for whatever the second is,
exactly if no push of the first is cut off (`sweep_is_local`).
-/

namespace BytecodeAssembler

namespace Instr

/-- Data with the byte of a push, which a sweep finds where a push is cut off. -/
def isCutOff : Instr → Bool
  | data b => decide (0x60 ≤ b.toNat ∧ b.toNat ≤ 0x7F)
  | _ => false

/-- What a sweep found before the first push that is cut off. -/
def untilCutOff (found : List (Nat × Instr)) : List (Nat × Instr) :=
  found.takeWhile fun entry => !entry.2.isCutOff

/-! ### More bytes behind an instruction -/

theorem Starts.opcode_eq {b : UInt8} {rest : List UInt8} {i : Instr} (h : Starts b rest i) :
    i.opcode = b := by
  obtain ⟨tail, after, hbytes, -⟩ := h.exists_toBytes
  cases i <;> exact (List.cons.inj hbytes).1

theorem Starts.ofHead_eq {b : UInt8} {rest : List UInt8} {i : Instr} (h : Starts b rest i) :
    ofHead b rest = i := by
  have hopcode := h.opcode_eq
  cases h with
  | @op o ho =>
    rw [← ho]
    exact ofHead_op o rest
  | @push immediate after hproper hb hrest =>
    rw [hrest, ← hopcode]
    exact ofHead_push hproper after
  | dup hproper hb =>
    rw [← hopcode]
    exact ofHead_dup hproper rest
  | swap hproper hb =>
    rw [← hopcode]
    exact ofHead_swap hproper rest
  | unknown hproper => exact ofHead_data hproper rest
  | truncated hcut => exact ofHead_of_truncated hcut

/-- Bytes that start with an instruction start with it when more bytes follow them. -/
theorem Starts.append {b : UInt8} {rest : List UInt8} {i : Instr} (h : Starts b rest i)
    (hi : i.isCutOff = false) (more : List UInt8) : Starts b (rest ++ more) i := by
  cases h with
  | op ho => exact .op ho
  | @push immediate after hproper hb hrest =>
    have hmore : rest ++ more = immediate ++ (after ++ more) := by rw [hrest, List.append_assoc]
    exact .push hproper hb hmore
  | dup hproper hb => exact .dup hproper hb
  | swap hproper hb => exact .swap hproper hb
  | unknown hproper => exact .unknown hproper
  | truncated hcut =>
    obtain ⟨hlow, hhigh, -⟩ := hcut
    simp [isCutOff, hlow, hhigh] at hi

theorem ofHead_append {b : UInt8} {rest : List UInt8} (h : (ofHead b rest).isCutOff = false)
    (more : List UInt8) : ofHead b (rest ++ more) = ofHead b rest :=
  ((starts_ofHead b rest).append h more).ofHead_eq

/-! ### More bytes behind a sweep -/

theorem untilCutOff_cons {entry : Nat × Instr} (h : entry.2.isCutOff = false)
    (found : List (Nat × Instr)) : untilCutOff (entry :: found) = entry :: untilCutOff found := by
  simp [untilCutOff, h]

theorem untilCutOff_eq_self {found : List (Nat × Instr)}
    (h : ∀ entry ∈ found, entry.2.isCutOff = false) : untilCutOff found = found := by
  rw [untilCutOff, List.takeWhile_eq_self_iff]
  intro entry hentry
  simp [h entry hentry]

/-- How many bytes lie before the first push that is cut off. -/
def lengthUntilCutOff (code : List UInt8) : Nat :=
  span ((untilCutOff (sweep code)).map Prod.snd)

theorem sweepFrom_append (pc : Nat) (code more : List UInt8) :
    sweepFrom pc 0 (code ++ more) = untilCutOff (sweepFrom pc 0 code) ++
      sweepFrom (pc + span ((untilCutOff (sweepFrom pc 0 code)).map Prod.snd)) 0
        (code.drop (span ((untilCutOff (sweepFrom pc 0 code)).map Prod.snd)) ++ more) := by
  induction code using rounds generalizing pc with
  | nil => rfl
  | round b tail after hbytes ih =>
    cases hcut : (ofHead b (tail ++ after)).isCutOff with
    | true =>
      have hnone : untilCutOff (sweepFrom pc 0 (b :: (tail ++ after))) = [] := by
        rw [sweepFrom_round hbytes]
        simp [untilCutOff, hcut]
      rw [hnone]
      rfl
    | false =>
      have hsame := ofHead_append hcut more
      rw [List.append_assoc] at hsame
      have hsize : (ofHead b (tail ++ after)).size = tail.length + 1 := by
        rw [← length_toBytes, hbytes, List.length_cons]
      have hbytes' : (ofHead b (tail ++ (after ++ more))).toBytes = b :: tail := by
        rw [hsame, hbytes]
      have hcode : b :: (tail ++ after) ++ more = b :: (tail ++ (after ++ more)) := by simp
      rw [hcode, sweepFrom_round hbytes', sweepFrom_round hbytes, untilCutOff_cons hcut, hsame, ih,
        List.map_cons, span_cons, ← Nat.add_assoc, List.cons_append]
      congr 3
      rw [hsize, Nat.add_right_comm, List.drop_succ_cons, ← List.drop_drop, List.drop_left]

/-- **The sweep over longer code** finds what stands before the first push that is cut off, and goes
on behind that. -/
theorem sweep_append (code more : List UInt8) :
    sweep (code ++ more) = untilCutOff (sweep code) ++
      (sweep (code.drop (lengthUntilCutOff code) ++ more)).map
        (Prod.map (lengthUntilCutOff code + ·) id) := by
  rw [sweep, sweepFrom_append, ← sweep, ← lengthUntilCutOff, Nat.add_comm 0, sweepFrom_add]
  rfl

theorem sweep_append_of_not_isCutOff {code : List UInt8}
    (h : ∀ entry ∈ sweep code, entry.2.isCutOff = false) (more : List UInt8) :
    sweep (code ++ more) = sweep code ++ (sweep more).map (Prod.map (code.length + ·) id) := by
  have hall := untilCutOff_eq_self h
  have hlength : lengthUntilCutOff code = code.length := by
    rw [lengthUntilCutOff, hall, span_sweep]
  rw [sweep_append, hall, hlength, List.drop_length, List.nil_append]

/-- **The sweep is local.** What it finds before the first push that is cut off is in front of what
it finds when bytes are appended. It finds in two pieces of code what it finds in each of them, for
all second pieces, exactly if no push of the first piece is cut off. -/
theorem sweep_is_local (code : List UInt8) :
    (∀ more, untilCutOff (sweep code) <+: sweep (code ++ more)) ∧
    ((∀ entry ∈ sweep code, entry.2.isCutOff = false) ↔ ∀ more,
      sweep (code ++ more) = sweep code ++ (sweep more).map (Prod.map (code.length + ·) id)) := by
  refine ⟨?_, sweep_append_of_not_isCutOff, ?_⟩
  · intro more
    rw [sweep_append]
    exact List.prefix_append _ _
  · rintro hlocal ⟨pc, i⟩ hmem
    cases i with
    | op | push | dup | swap => rfl
    | data b =>
      -- behind 32 more bytes no push is cut off, and the data must still be found
      have hlong : (pc, data b) ∈ sweep (code ++ List.replicate 32 0) := by
        rw [hlocal]
        exact List.mem_append_left _ hmem
      obtain ⟨-, hbyte, -⟩ := data_mem_sweep_iff.mp hmem
      obtain ⟨hpc, -⟩ := List.getElem?_eq_some_iff.mp hbyte
      obtain ⟨-, -, ⟨hrange, -⟩ | ⟨hlow, hhigh, hshort⟩⟩ := data_mem_sweep_iff.mp hlong
      · simp only [isCutOff, decide_eq_false_iff_not]
        omega
      · simp only [List.length_drop, List.length_append, List.length_replicate] at hshort
        omega

/-- Of the three instructions found in a push that is cut off, one stays when a byte is appended. -/
theorem sweep_is_local_completed :
    sweep [0x0C, 0x61, 0x01] = [(0, data 0x0C), (1, data 0x61), (2, op .ADD)] ∧
      sweep ([0x0C, 0x61, 0x01] ++ [0x02]) = [(0, data 0x0C), (1, push [0x01, 0x02])] ∧
      untilCutOff (sweep [0x0C, 0x61, 0x01]) <+: sweep ([0x0C, 0x61, 0x01] ++ [0x02]) ∧
      sweep ([0x0C, 0x01] ++ [0x61, 0x01]) =
        sweep [0x0C, 0x01] ++ [(2, data 0x61), (3, op .ADD)] := by
  obtain ⟨hkept, -⟩ := sweep_is_local [0x0C, 0x61, 0x01]
  obtain ⟨-, hlocal⟩ := sweep_is_local [0x0C, 0x01]
  exact ⟨by decide, by decide, hkept _, hlocal.mp (by decide) _⟩

end Instr

end BytecodeAssembler
