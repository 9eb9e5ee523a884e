import BytecodeAssembler.Proofs.Sweep

/-!
# The sweep tiles any bytes

Bytes that no session wrote may end inside an immediate. A push that is cut off like that
(`Truncated`) is one byte of data, and the sweep goes on in what would have been its immediate,
where shorter pushes may fit or be cut off in turn.

What bytes start with is laid down in `Starts`, and a round of the sweep takes just that
(`sweepFrom_round`). So the sweep is followed round by round (`rounds`), and what it finds makes up
the code again, without a gap and without an overlap (`sweep_lossless`).
-/

namespace BytecodeAssembler

namespace Opcode

theorem byte_of_ofByte? {b : UInt8} {o : Opcode} (h : ofByte? b = some o) : o.byte = b := by
  have hfound := List.find?_some h
  simpa using hfound

end Opcode

namespace Instr

/-! ### What bytes start with -/

/-- The byte of a push whose immediate runs past the end, if only `rest` follows it. -/
def Truncated (b : UInt8) (rest : List UInt8) : Prop :=
  0x60 ≤ b.toNat ∧ b.toNat ≤ 0x7F ∧ rest.length < b.toNat - 0x5F

/-- The instruction that starts with the byte `b`, if `rest` follows it. -/
inductive Starts (b : UInt8) (rest : List UInt8) : Instr → Prop
  | op {o : Opcode} : o.byte = b → Starts b rest (op o)
  | push {immediate after : List UInt8} : (push immediate).Proper →
      b.toNat = 0x5F + immediate.length → rest = immediate ++ after → Starts b rest (push immediate)
  | dup {n : UInt8} : (dup n).Proper → b.toNat = 0x80 + n.toNat → Starts b rest (dup n)
  | swap {n : UInt8} : (swap n).Proper → b.toNat = 0x8F + n.toNat → Starts b rest (swap n)
  | unknown : (data b).Proper → Starts b rest (data b)
  | truncated : Truncated b rest → Starts b rest (data b)

theorem toNat_sub_dup1 {b : UInt8} (h : 0x80 ≤ b.toNat) : (b - dup1).toNat = b.toNat - 0x80 :=
  UInt8.toNat_sub_of_le _ _ (UInt8.le_iff_toNat_le.mpr h)

theorem toNat_sub_swap1 {b : UInt8} (hlow : 0x90 ≤ b.toNat) (hhigh : b.toNat ≤ 0x9F) :
    (b - swap1 + 1).toNat = b.toNat - 0x8F := by
  have hsub : (b - swap1).toNat = b.toNat - 0x90 :=
    UInt8.toNat_sub_of_le _ _ (UInt8.le_iff_toNat_le.mpr hlow)
  have hone : (1 : UInt8).toNat = 1 := rfl
  rw [UInt8.toNat_add, hsub, hone]
  omega

theorem starts_ofHead (b : UInt8) (rest : List UInt8) : Starts b rest (ofHead b rest) := by
  unfold ofHead
  simp only [UInt8.le_iff_toNat_le, UInt8.reduceToNat]
  split
  · next hpush =>
    have hlength : (rest.take (b.toNat - 0x5F)).length = min (b.toNat - 0x5F) rest.length :=
      List.length_take
    split
    · refine .push ⟨?_, ?_⟩ ?_ (List.take_append_drop _ rest).symm
      · omega
      · rw [maxPush]
        omega
      · omega
    · refine .truncated ⟨hpush.1, hpush.2, ?_⟩
      omega
  · split
    · next hdup =>
      have hn := toNat_sub_dup1 hdup.1
      refine .dup ?_ ?_
      · show (b - dup1).toNat < 16
        omega
      · omega
    · split
      · next hswap =>
        have hn := toNat_sub_swap1 hswap.1 hswap.2
        refine .swap ⟨?_, ?_⟩ ?_
        · omega
        · rw [stackWindow]
          omega
        · omega
      · split
        · next o ho => exact .op (Opcode.byte_of_ofByte? ho)
        · next hnone =>
          refine .unknown ⟨?_, hnone⟩
          omega

theorem ofHead_of_truncated {b : UInt8} {rest : List UInt8} (h : Truncated b rest) :
    ofHead b rest = data b := by
  obtain ⟨hlow, hhigh, hshort⟩ := h
  have hpush : 0x60 ≤ b ∧ b ≤ 0x7F := by
    simp only [UInt8.le_iff_toNat_le, UInt8.reduceToNat]
    omega
  have hlength : ¬ (rest.take (b.toNat - 0x5F)).length = b.toNat - 0x5F := by
    rw [List.length_take]
    omega
  unfold ofHead
  rw [if_pos hpush]
  exact if_neg hlength

theorem ofHead_eq_data_iff {b c : UInt8} {rest : List UInt8} :
    ofHead b rest = data c ↔ c = b ∧ ((data b).Proper ∨ Truncated b rest) := by
  constructor
  · intro h
    have hstarts := starts_ofHead b rest
    rw [h] at hstarts
    cases hstarts with
    | unknown hb => exact ⟨rfl, Or.inl hb⟩
    | truncated hb => exact ⟨rfl, Or.inr hb⟩
  · rintro ⟨rfl, hb | hb⟩
    · exact ofHead_data hb rest
    · exact ofHead_of_truncated hb

/-- The bytes of an instruction that bytes start with are those in front. -/
theorem Starts.exists_toBytes {b : UInt8} {rest : List UInt8} {i : Instr} (h : Starts b rest i) :
    ∃ tail after, i.toBytes = b :: tail ∧ rest = tail ++ after := by
  have hone : ∀ {i : Instr}, i.toBytes = [i.opcode] → i.opcode = b →
      ∃ tail after, i.toBytes = b :: tail ∧ rest = tail ++ after := by
    intro i hbytes hopcode
    exact ⟨[], rest, by rw [hbytes, hopcode], rfl⟩
  cases h with
  | op ho => exact hone rfl ho
  | @push immediate after hproper hb hrest =>
    have hopcode : (Instr.push immediate).opcode = b := by
      apply UInt8.toNat_inj.mp
      rw [toNat_opcode_push hproper, hb]
    exact ⟨immediate, after, by rw [toBytes, hopcode], hrest⟩
  | @dup n hproper hb =>
    refine hone rfl (UInt8.toNat_inj.mp ?_)
    rw [toNat_opcode_dup hproper, hb]
  | @swap n hproper hb =>
    refine hone rfl (UInt8.toNat_inj.mp ?_)
    rw [toNat_opcode_swap hproper, hb]
  | unknown hb => exact hone rfl rfl
  | truncated hb => exact hone rfl rfl

/-! ### Rounds of the sweep -/

/-- Code is taken apart round by round: in front of each round's rest stand the bytes of the
instruction that the round finds. -/
theorem rounds {motive : List UInt8 → Prop} (nil : motive [])
    (round : ∀ b tail after, (ofHead b (tail ++ after)).toBytes = b :: tail → motive after →
      motive (b :: (tail ++ after)))
    (code : List UInt8) : motive code := by
  induction hlength : code.length using Nat.strong_induction_on generalizing code with
  | _ n ih =>
    cases code with
    | nil => exact nil
    | cons b rest =>
      obtain ⟨tail, after, hbytes, rfl⟩ := (starts_ofHead b rest).exists_toBytes
      refine round b tail after hbytes (ih after.length ?_ after rfl)
      simp only [List.length_cons, List.length_append] at hlength
      omega

/-- **A round of the sweep**: the instruction in front, and what the sweep finds behind it. -/
theorem sweepFrom_round {b : UInt8} {tail after : List UInt8}
    (h : (ofHead b (tail ++ after)).toBytes = b :: tail) (pc : Nat) :
    sweepFrom pc 0 (b :: (tail ++ after)) = (pc, ofHead b (tail ++ after)) ::
      sweepFrom (pc + (ofHead b (tail ++ after)).size) 0 after := by
  have hround := sweepFrom_of_head h rfl pc
  rwa [h] at hround

theorem flatten_sweepFrom (pc : Nat) (code : List UInt8) :
    flatten ((sweepFrom pc 0 code).map Prod.snd) = code := by
  induction code using rounds generalizing pc with
  | nil => rfl
  | round b tail after hbytes ih =>
    rw [sweepFrom_round hbytes, List.map_cons, flatten_cons, hbytes, ih, List.cons_append]

theorem located_sweepFrom (pc : Nat) (code : List UInt8) :
    located pc ((sweepFrom pc 0 code).map Prod.snd) = sweepFrom pc 0 code := by
  induction code using rounds generalizing pc with
  | nil => rfl
  | round b tail after hbytes ih =>
    rw [sweepFrom_round hbytes, List.map_cons, located, ih]

/-- An instruction that the sweep finds is the one that the bytes from its offset on start with. -/
theorem eq_ofHead_of_mem_sweepFrom {pc : Nat} {code : List UInt8} {entry : Nat × Instr}
    (h : entry ∈ sweepFrom pc 0 code) :
    ∃ k b, code[k]? = some b ∧ entry = (pc + k, ofHead b (code.drop (k + 1))) := by
  induction code using rounds generalizing pc with
  | nil => cases h
  | round b tail after hbytes ih =>
    rw [sweepFrom_round hbytes, List.mem_cons] at h
    rcases h with rfl | h
    · exact ⟨0, b, rfl, rfl⟩
    · obtain ⟨k, c, hbyte, rfl⟩ := ih h
      have hsize : (ofHead b (tail ++ after)).size = tail.length + 1 := by
        rw [← length_toBytes, hbytes, List.length_cons]
      refine ⟨tail.length + 1 + k, c, ?_, ?_⟩
      · rw [Nat.add_right_comm, List.getElem?_cons_succ,
          List.getElem?_append_right (Nat.le_add_right _ _), Nat.add_sub_cancel_left, hbyte]
      · have hrest :
            (b :: (tail ++ after)).drop (tail.length + 1 + k + 1) = after.drop (k + 1) := by
          rw [Nat.add_assoc, Nat.add_right_comm, List.drop_succ_cons, ← List.drop_drop,
            List.drop_left]
        rw [hrest, hsize, Nat.add_assoc]

/-! ### Offsets -/

/-- Where a sweep starts is added to the offsets it finds. -/
theorem sweepFrom_add (offset pc skip : Nat) (code : List UInt8) :
    sweepFrom (offset + pc) skip code =
      (sweepFrom pc skip code).map (Prod.map (offset + ·) id) := by
  induction code generalizing pc skip with
  | nil => rfl
  | cons b rest ih =>
    cases skip with
    | zero =>
      rw [sweepFrom, sweepFrom, Nat.add_assoc, ih]
      rfl
    | succ skip => rw [sweepFrom, sweepFrom, Nat.add_assoc, ih]

theorem isChain_located (pc : Nat) (is : List Instr) :
    (located pc is).IsChain fun x y => y.1 = x.1 + x.2.size := by
  induction is generalizing pc with
  | nil => exact .nil
  | cons i is ih =>
    cases is with
    | nil => exact .singleton _
    | cons j is => exact .cons_cons rfl (ih _)

theorem fst_of_head?_located {pc : Nat} {is : List Instr} {first : Nat × Instr}
    (h : first ∈ (located pc is).head?) : first.1 = pc := by
  cases is with
  | nil => cases h
  | cons i is =>
    obtain rfl : (pc, i) = first := by simpa [located] using h
    rfl

theorem end_of_getLast?_located {pc : Nat} {is : List Instr} {last : Nat × Instr}
    (h : last ∈ (located pc is).getLast?) : last.1 + last.2.size = pc + span is := by
  induction is generalizing pc with
  | nil => cases h
  | cons i is ih =>
    cases is with
    | nil =>
      obtain rfl : (pc, i) = last := by simpa [located] using h
      simp
    | cons j is =>
      rw [located, located, List.getLast?_cons_cons, ← located] at h
      rw [ih h, span_cons i, Nat.add_assoc]

theorem length_le_span (is : List Instr) : is.length ≤ span is := by
  induction is with
  | nil => exact le_rfl
  | cons i is ih =>
    have hpos := size_pos i
    rw [List.length_cons, span_cons]
    omega

/-! ### The sweep over any code -/

section Sweep

variable (code : List UInt8)

theorem flatten_sweep : flatten ((sweep code).map Prod.snd) = code :=
  flatten_sweepFrom 0 code

theorem located_sweep : located 0 ((sweep code).map Prod.snd) = sweep code :=
  located_sweepFrom 0 code

theorem span_sweep : span ((sweep code).map Prod.snd) = code.length := by
  rw [← length_flatten, flatten_sweep]

end Sweep

variable {code : List UInt8}

theorem eq_ofHead_of_mem_sweep {pc : Nat} {i : Instr} (h : (pc, i) ∈ sweep code) :
    ∃ b, code[pc]? = some b ∧ i = ofHead b (code.drop (pc + 1)) := by
  obtain ⟨k, b, hbyte, heq⟩ := eq_ofHead_of_mem_sweepFrom h
  obtain ⟨rfl, rfl⟩ : pc = k ∧ i = ofHead b (code.drop (k + 1)) := by simpa using heq
  exact ⟨b, hbyte, rfl⟩

theorem starts_of_mem_sweep {pc : Nat} {i : Instr} (h : (pc, i) ∈ sweep code) :
    ∃ b, code[pc]? = some b ∧ Starts b (code.drop (pc + 1)) i := by
  obtain ⟨b, hbyte, rfl⟩ := eq_ofHead_of_mem_sweep h
  exact ⟨b, hbyte, starts_ofHead b _⟩

/-- What the sweep finds is well formed, unless it is data. -/
theorem proper_of_mem_sweep {pc : Nat} {i : Instr} (h : (pc, i) ∈ sweep code)
    (hi : ∀ b, i ≠ data b) : i.Proper := by
  obtain ⟨b, -, hstarts⟩ := starts_of_mem_sweep h
  cases hstarts with
  | op _ => trivial
  | push hproper => exact hproper
  | dup hproper => exact hproper
  | swap hproper => exact hproper
  | unknown hproper => exact hproper
  | truncated _ => exact absurd rfl (hi b)

/-- Where the sweep finds data: at a byte that starts no instruction, or at a push that is cut
off. -/
theorem data_mem_sweep_iff {pc : Nat} {b : UInt8} :
    (pc, data b) ∈ sweep code ↔ pc ∈ (sweep code).map Prod.fst ∧ code[pc]? = some b ∧
      ((data b).Proper ∨ Truncated b (code.drop (pc + 1))) := by
  constructor
  · intro h
    obtain ⟨c, hbyte, hhead⟩ := eq_ofHead_of_mem_sweep h
    obtain ⟨rfl, hb⟩ := ofHead_eq_data_iff.mp hhead.symm
    exact ⟨List.mem_map_of_mem h, hbyte, hb⟩
  · rintro ⟨hpc, hbyte, hb⟩
    obtain ⟨⟨pc, i⟩, hmem, rfl⟩ := List.mem_map.mp hpc
    obtain ⟨c, hbyte', rfl⟩ := eq_ofHead_of_mem_sweep hmem
    obtain rfl : b = c := Option.some.inj (hbyte.symm.trans hbyte')
    rwa [ofHead_eq_data_iff.mpr ⟨rfl, hb⟩] at hmem

/-- **The sweep loses nothing.** On any code it ends after at most as many rounds as there are
bytes, and

* the bytes of the instructions it finds are the code;
* the first starts at offset zero, each other one where the one before ends, and the last ends where
  the code ends;
* a push has 1 to 32 bytes, `DUP` and `SWAP` are within the stack window, and an operation is the
  one of its byte;
* of the offsets where it finds an instruction, it finds data just at those where a byte starts no
  instruction or a push is cut off. -/
theorem sweep_lossless (code : List UInt8) :
    let found := sweep code
    found.length ≤ code.length ∧ flatten (found.map Prod.snd) = code ∧
      (∀ first ∈ found.head?, first.1 = 0) ∧
      (found.IsChain fun x y => y.1 = x.1 + x.2.size) ∧
      (∀ last ∈ found.getLast?, last.1 + last.2.size = code.length) ∧
      (∀ pc o, (pc, op o) ∈ found → code[pc]? = some o.byte) ∧
      (∀ pc immediate, (pc, push immediate) ∈ found →
        1 ≤ immediate.length ∧ immediate.length ≤ 32) ∧
      (∀ pc n, (pc, dup n) ∈ found → n.toNat ≤ 15) ∧
      (∀ pc n, (pc, swap n) ∈ found → 1 ≤ n.toNat ∧ n.toNat ≤ 16) ∧
      ∀ pc b, (pc, data b) ∈ found ↔ pc ∈ found.map Prod.fst ∧ code[pc]? = some b ∧
        ((b.toNat < 0x60 ∨ 0x9F < b.toNat) ∧ Opcode.ofByte? b = none ∨
          0x60 ≤ b.toNat ∧ b.toNat ≤ 0x7F ∧ (code.drop (pc + 1)).length < b.toNat - 0x5F) := by
  intro found
  have hlocated : located 0 (found.map Prod.snd) = found := located_sweep code
  have hspan : span (found.map Prod.snd) = code.length := span_sweep code
  refine ⟨?_, flatten_sweep code, ?_, ?_, ?_, ?_, ?_, ?_, ?_, fun pc b => data_mem_sweep_iff⟩
  · have hlength := length_le_span (found.map Prod.snd)
    rwa [List.length_map, hspan] at hlength
  · intro first hfirst
    rw [← hlocated] at hfirst
    exact fst_of_head?_located hfirst
  · rw [← hlocated]
    exact isChain_located 0 _
  · intro last hlast
    rw [← hlocated] at hlast
    rw [end_of_getLast?_located hlast, hspan, Nat.zero_add]
  · intro pc o hmem
    obtain ⟨b, hbyte, hstarts⟩ := starts_of_mem_sweep hmem
    cases hstarts with
    | op ho => rw [hbyte, ho]
  · intro pc immediate hmem
    exact proper_of_mem_sweep hmem (by simp)
  · intro pc n hmem
    exact Nat.le_of_lt_succ (proper_of_mem_sweep hmem (by simp))
  · intro pc n hmem
    exact proper_of_mem_sweep hmem (by simp)

/-- A push of five bytes of which four are there, and behind its byte a push that fits and two more
that are cut off. -/
theorem sweep_lossless_truncated :
    let code : List UInt8 := [0x0C, 0x64, 0x60, 0x0C, 0x61, 0x7F]
    sweep code =
        [(0, data 0x0C), (1, data 0x64), (2, push [0x0C]), (4, data 0x61), (5, data 0x7F)] ∧
      flatten ((sweep code).map Prod.snd) = code ∧ (3, data 0x0C) ∉ sweep code := by
  intro code
  obtain ⟨-, hflatten, -, -, -, -, -, -, -, hdata⟩ := sweep_lossless code
  refine ⟨by decide, hflatten, ?_⟩
  intro hmem
  obtain ⟨hpc, -⟩ := (hdata 3 0x0C).mp hmem
  exact absurd hpc (by decide)

end Instr

end BytecodeAssembler
