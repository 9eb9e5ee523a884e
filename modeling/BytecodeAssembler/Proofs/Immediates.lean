import BytecodeAssembler.Proofs.Disassembly
import BytecodeAssembler.Proofs.Payload

/-!
# The number of a push

A push stands for the number of its immediate, if that fits in a machine word (`Instr.Pushes`).
Whether it is read (`Instr.value?`) is decided by the width of the immediate and not by the number,
so the two differ where zeros stand in front of eight bytes (`Instr.IsPadded`), and only there
(`value?_eq_some_iff`).

Nothing is lost at eight bytes: a word holds any number up to the multiples of `2 ^ 64`
(`Bytes.toNat_wordOf`). And sessions write no padded push, since what they push is as short as it
can be or the three bytes of an offset (`Session.not_isPadded_of_mem_sweep`).
-/

namespace BytecodeAssembler

namespace Bytes

/-! ### Machine words -/

/-- Bytes read into a word of 64 bits: what was read moves up by a byte, and the next byte takes the
place below it. -/
def wordOf (bytes : List UInt8) : UInt64 :=
  bytes.foldl (fun word b => word <<< 8 ||| b.toUInt64) 0

theorem toNat_shiftLeft_or (word : UInt64) (b : UInt8) :
    (word <<< 8 ||| b.toUInt64).toNat = (word.toNat * 256 + b.toNat) % 2 ^ 64 := by
  have hb : b.toNat < 2 ^ 8 := b.toNat_lt
  have hshift : (word <<< 8).toNat = word.toNat <<< 8 % 2 ^ 64 := UInt64.toNat_shiftLeft word 8
  have hbyte : b.toUInt64.toNat = b.toNat % 2 ^ 64 := by
    rw [UInt8.toNat_toUInt64]
    omega
  -- below the shifted word eight bits are free, also where the word is cut off
  rw [UInt64.toNat_or, hshift, hbyte, ← Nat.or_mod_two_pow,
    ← Nat.shiftLeft_add_eq_or_of_lt hb, Nat.shiftLeft_eq]

/-- A word holds the number of bytes up to what does not fit. -/
theorem toNat_wordOf (bytes : List UInt8) : (wordOf bytes).toNat = valueOf bytes % 2 ^ 64 := by
  induction bytes using List.reverseRecOn with
  | nil => rfl
  | append_singleton bytes b ih =>
    have hword : wordOf (bytes ++ [b]) = wordOf bytes <<< 8 ||| b.toUInt64 := by simp [wordOf]
    rw [hword, toNat_shiftLeft_or, ih, valueOf_concat]
    omega

/-! ### Zeros in front -/

theorem valueOf_zeros_append (k : Nat) (bytes : List UInt8) :
    valueOf (List.replicate k 0 ++ bytes) = valueOf bytes := by
  induction k with
  | zero => rfl
  | succ k ih =>
    rw [List.replicate_succ, List.cons_append, valueOf_cons, ih, UInt8.toNat_zero, Nat.zero_mul,
      Nat.zero_add]

theorem valueOf_lt_of_length_le {bytes : List UInt8} {k : Nat} (h : bytes.length ≤ k) :
    valueOf bytes < 256 ^ k :=
  (valueOf_lt bytes).trans_le (Nat.pow_le_pow_right (by decide) h)

/-- Bytes of a number that fits in fewer of them have zeros in front of these. -/
theorem exists_zeros_of_valueOf_lt {bytes : List UInt8} {k : Nat} (hk : k ≤ bytes.length)
    (h : valueOf bytes < 256 ^ k) :
    ∃ zeros low, low.length = k ∧ bytes = List.replicate zeros 0 ++ low := by
  induction bytes with
  | nil => exact ⟨0, [], (Nat.le_zero.mp hk).symm, rfl⟩
  | cons b bytes ih =>
    rcases Nat.lt_or_ge bytes.length k with hlt | hge
    · exact ⟨0, b :: bytes, Nat.le_antisymm hlt hk, rfl⟩
    · rw [valueOf_cons] at h
      have hpow : 256 ^ k ≤ 256 ^ bytes.length := Nat.pow_le_pow_right (by decide) hge
      have hb : b.toNat = 0 := by
        by_contra hne
        have hlow := Nat.le_mul_of_pos_left (256 ^ bytes.length) (Nat.pos_of_ne_zero hne)
        omega
      obtain ⟨zeros, low, hlow, rfl⟩ := ih hge (by omega)
      obtain rfl : b = 0 := UInt8.toNat_inj.mp hb
      exact ⟨zeros + 1, low, hlow, rfl⟩

end Bytes

namespace Instr

open Bytes

/-! ### Padded pushes -/

/-- A push of a number that fits in a machine word. -/
def Pushes (i : Instr) (v : Nat) : Prop :=
  ∃ immediate, i = push immediate ∧ valueOf immediate = v ∧ v < 2 ^ 64

/-- A push with zeros in front of eight bytes. -/
def IsPadded (i : Instr) : Prop :=
  ∃ zeros low, 0 < zeros ∧ low.length = 8 ∧ i = push (List.replicate zeros 0 ++ low)

variable {immediate : List UInt8}

theorem isPadded_push_iff :
    (push immediate).IsPadded ↔ 8 < immediate.length ∧ valueOf immediate < 2 ^ 64 := by
  constructor
  · rintro ⟨zeros, low, hzeros, hlow, heq⟩
    obtain rfl := push.inj heq
    refine ⟨?_, (valueOf_zeros_append zeros low).trans_lt (valueOf_lt_of_length_le hlow.le)⟩
    rw [List.length_append, List.length_replicate, hlow]
    omega
  · rintro ⟨hwidth, hvalue⟩
    obtain ⟨zeros, low, hlow, rfl⟩ := exists_zeros_of_valueOf_lt hwidth.le hvalue
    rw [List.length_append, List.length_replicate, hlow] at hwidth
    exact ⟨zeros, low, by omega, hlow, rfl⟩

theorem IsPadded.exists_pushes {i : Instr} (h : i.IsPadded) : ∃ v, i.Pushes v := by
  have ⟨zeros, low, _, _, hi⟩ := h
  subst hi
  exact ⟨_, _, rfl, rfl, (isPadded_push_iff.mp h).2⟩

theorem not_isPadded_of_length_le (h : immediate.length ≤ 8) : ¬ (push immediate).IsPadded :=
  fun hpadded => Nat.not_lt.mpr h (isPadded_push_iff.mp hpadded).1

theorem not_isPadded_shortest (n : Nat) : ¬ (push (shortest n)).IsPadded := by
  intro hpadded
  obtain ⟨hwidth, hvalue⟩ := isPadded_push_iff.mp hpadded
  rw [valueOf_shortest] at hvalue
  exact Nat.not_lt.mpr ((length_shortest_le_iff (by decide) n).mpr hvalue) hwidth

/-! ### Numbers that are read -/

theorem value?_of_length_le (h : immediate.length ≤ 8) :
    (push immediate).value? = some (wordOf immediate).toNat := by
  have hlt : valueOf immediate < 2 ^ 64 := valueOf_lt_of_length_le h
  rw [value?, if_pos h, toNat_wordOf, Nat.mod_eq_of_lt hlt]

theorem value?_eq_some_iff {i : Instr} {v : Nat} :
    i.value? = some v ↔ i.Pushes v ∧ ¬ i.IsPadded := by
  cases i with
  | op | dup | swap | data => simp [value?, Pushes]
  | push immediate =>
    have hpushes : (push immediate).Pushes v ↔ valueOf immediate = v ∧ v < 2 ^ 64 := by
      simp [Pushes]
    rw [hpushes, isPadded_push_iff, value?]
    by_cases hwidth : immediate.length ≤ 8
    · have hlt : valueOf immediate < 2 ^ 64 := valueOf_lt_of_length_le hwidth
      rw [if_pos hwidth, Option.some.injEq]
      constructor
      · rintro rfl
        exact ⟨⟨rfl, hlt⟩, fun h => Nat.not_lt.mpr hwidth h.1⟩
      · rintro ⟨⟨hvalue, -⟩, -⟩
        exact hvalue
    · rw [if_neg hwidth]
      simp only [reduceCtorEq, false_iff]
      rintro ⟨⟨rfl, hlt⟩, hpadded⟩
      exact hpadded ⟨Nat.not_le.mp hwidth, hlt⟩

end Instr

/-! ### Pushes that a session writes -/

theorem Step.not_isPadded_of_mem_instrs {operand : String → List UInt8}
    (hoperand : ∀ name, (operand name).length = 3) {a : Step} {i : Instr}
    (h : i ∈ a.instrs operand) : ¬ i.IsPadded := by
  have hop : ∀ o, ¬ (Instr.op o).IsPadded := by simp [Instr.IsPadded]
  have htarget : ∀ name, ¬ (Instr.push (operand name)).IsPadded := fun name =>
    Instr.not_isPadded_of_length_le (by rw [hoperand]; decide)
  rcases a with label | (o | v | n | n | (_ | target) | (_ | target))
  case perform.push =>
    obtain rfl := List.mem_singleton.mp h
    exact Instr.not_isPadded_shortest _
  case perform.dup | perform.swap =>
    obtain rfl := List.mem_singleton.mp h
    simp [Instr.IsPadded]
  case perform.jump.some | perform.jumpi.some =>
    rcases List.mem_pair.mp h with rfl | rfl
    · exact htarget target
    · exact hop _
  all_goals
    obtain rfl := List.mem_singleton.mp h
    exact hop _

theorem Session.not_isPadded_of_mem_sweep {as : List Step} {entry : Nat × Instr}
    (h : entry ∈ Instr.sweep (attempt {} as).1.code.toList) : ¬ entry.2.IsPadded := by
  have hlinked := linked_attempt as
  rw [hlinked.code, hlinked.lawful.sweep_code] at h
  obtain ⟨place, -, hmem⟩ := List.mem_flatMap.mp h
  exact Step.not_isPadded_of_mem_instrs (TwoPass.length_operand _) (Instr.mem_of_mem_located hmem)

namespace Instr

open Bytes

/-- **The number of a push is read unless it is padded.** Of any instruction, the number is read
that it pushes and that fits in a machine word, but not behind zeros in front of eight bytes: every
number that fits is read exactly if there are none. Up to eight bytes, words read the same number.
What a session writes is not padded. -/
theorem value_is_read_unless_padded (i : Instr) :
    (∀ v, i.value? = some v ↔ i.Pushes v ∧ ¬ i.IsPadded) ∧
    ((∀ v, i.value? = some v ↔ i.Pushes v) ↔ ¬ i.IsPadded) ∧
    (∀ immediate, i = push immediate → immediate.length ≤ 8 →
      i.value? = some (wordOf immediate).toNat) ∧
    ∀ (as : List Step) (pc : Nat), (pc, i) ∈ sweep (Session.attempt {} as).1.code.toList →
      ¬ i.IsPadded := by
  refine ⟨fun v => value?_eq_some_iff, ⟨?_, ?_⟩, ?_, ?_⟩
  · intro hread hpadded
    obtain ⟨v, hv⟩ := hpadded.exists_pushes
    exact (value?_eq_some_iff.mp ((hread v).mpr hv)).2 hpadded
  · intro hpadded v
    rw [value?_eq_some_iff, and_iff_left hpadded]
  · rintro immediate rfl hwidth
    exact value?_of_length_le hwidth
  · intro as pc hmem
    exact Session.not_isPadded_of_mem_sweep hmem

/-- The largest number of eight bytes is read, and so is the offset that a session pushes. -/
theorem value_is_read_unless_padded_edge :
    (push (List.replicate 8 0xFF)).value? = some (2 ^ 64 - 1) ∧
      (1, push [0, 0, 0]) ∈
        sweep (Session.attempt {} [.place "top", .perform (.jump (some "top"))]).1.code.toList ∧
      ∀ v, (push [0, 0, 0]).value? = some v ↔ (push [0, 0, 0]).Pushes v := by
  obtain ⟨-, -, hwords, -⟩ := value_is_read_unless_padded (push (List.replicate 8 0xFF))
  obtain ⟨-, hread, -, hsession⟩ := value_is_read_unless_padded (push [0, 0, 0])
  have hword : (wordOf (List.replicate 8 0xFF)).toNat = 2 ^ 64 - 1 := by decide
  have hmem : (1, push [0, 0, 0]) ∈
      sweep (Session.attempt {} [.place "top", .perform (.jump (some "top"))]).1.code.toList := by
    decide
  refine ⟨?_, hmem, hread.mpr (hsession _ _ hmem)⟩
  rw [hwords _ rfl (by decide), hword]

/-- Behind a single zero, eight bytes of the number 5 are not read. -/
theorem padded_push_is_not_read :
    let padded := push [0, 0, 0, 0, 0, 0, 0, 0, 5]
    sweep [0x68, 0, 0, 0, 0, 0, 0, 0, 0, 5] = [(0, padded)] ∧ padded.Pushes 5 ∧
      padded.value? = none :=
  ⟨by decide, ⟨_, rfl, by decide, by decide⟩, by decide⟩

end Instr

end BytecodeAssembler
