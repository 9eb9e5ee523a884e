import Mathlib.Data.List.Induction
import Mathlib.Tactic.Linarith
import Mathlib.Tactic.NormNum
import Mathlib.Tactic.Ring
import BytecodeAssembler.Operand

/-!
# The number of a push operand decides its immediate

Leading zeros aside, bytes and numbers determine each other:

* `bigEndian_valueOf`: bytes are the digits of their value in as many bytes;
* `length_shortest_le_iff`: `shortest n` fits in `k` bytes exactly if `n < 256 ^ k`;
* `minimal_eq_shortest`: bytes without their leading zeros are the shortest bytes of their value.

So an operand is encoded from its value alone (`encode_of_lt`), and is refused exactly if it has no
bytes or its value is too large (`encode_empty`, `encode_of_le`).
-/

namespace BytecodeAssembler

namespace Bytes

/-! ### Values of byte strings -/

theorem foldl_eq_valueOf (n : Nat) (bytes : List UInt8) :
    bytes.foldl (fun n b => n * 256 + b.toNat) n = n * 256 ^ bytes.length + valueOf bytes := by
  induction bytes generalizing n with
  | nil => simp [valueOf]
  | cons b bytes ih =>
    have tail := ih (0 * 256 + b.toNat)
    rw [valueOf, List.foldl_cons, List.foldl_cons, ih, tail, List.length_cons, Nat.pow_succ]
    ring

theorem valueOf_cons (b : UInt8) (bytes : List UInt8) :
    valueOf (b :: bytes) = b.toNat * 256 ^ bytes.length + valueOf bytes := by
  have h := foldl_eq_valueOf (0 * 256 + b.toNat) bytes
  rw [Nat.zero_mul, Nat.zero_add] at h
  rw [← h, valueOf, List.foldl_cons, Nat.zero_mul, Nat.zero_add]

theorem valueOf_lt (bytes : List UInt8) : valueOf bytes < 256 ^ bytes.length := by
  induction bytes with
  | nil => simp [valueOf]
  | cons b bytes ih =>
    have hb : b.toNat + 1 ≤ 256 := b.toNat_lt
    have step : (b.toNat + 1) * 256 ^ bytes.length ≤ 256 * 256 ^ bytes.length :=
      Nat.mul_le_mul_right _ hb
    rw [valueOf_cons, List.length_cons, Nat.pow_succ]
    linarith

/-- Digits of a fixed width hold a number up to the multiples that do not fit. -/
theorem valueOf_bigEndian (width n : Nat) : valueOf (bigEndian width n) = n % 256 ^ width := by
  induction width generalizing n with
  | zero => simp [bigEndian, valueOf, Nat.mod_one]
  | succ width ih =>
    have split : n % (256 * 256 ^ width) = n % 256 + 256 * (n / 256 % 256 ^ width) := Nat.mod_mul
    have low : (UInt8.ofNat n).toNat = n % 256 := by simp
    rw [bigEndian, valueOf_concat, ih, low, Nat.pow_succ, Nat.mul_comm (256 ^ width), split]
    omega

theorem bigEndian_valueOf (bytes : List UInt8) :
    bigEndian bytes.length (valueOf bytes) = bytes := by
  induction bytes using List.reverseRecOn with
  | nil => rfl
  | append_singleton bytes b ih =>
    have hb : b.toNat < 256 := b.toNat_lt
    have high : (valueOf bytes * 256 + b.toNat) / 256 = valueOf bytes := by omega
    have low : UInt8.ofNat (valueOf bytes * 256 + b.toNat) = b := by
      apply UInt8.toNat_inj.mp
      rw [UInt8.toNat_ofNat']
      omega
    rw [valueOf_concat, List.length_append, List.length_singleton, bigEndian, high, low, ih]

/-! ### Shortest byte strings -/

theorem length_shortest (n : Nat) : (shortest n).length = n.log2 / 8 + 1 := by
  simp [shortest]

theorem length_shortest_pos (n : Nat) : 1 ≤ (shortest n).length := by
  simp [length_shortest]

theorem shortest_ne_nil (n : Nat) : shortest n ≠ [] := by
  have h := length_shortest_pos n
  intro h0
  simp [h0] at h

theorem length_shortest_le_iff {k : Nat} (hk : 1 ≤ k) (n : Nat) :
    (shortest n).length ≤ k ↔ n < 256 ^ k := by
  have hpow : 256 ^ k = 2 ^ (8 * k) := by rw [Nat.pow_mul]
  rw [length_shortest, hpow]
  rcases Nat.eq_zero_or_pos n with rfl | hn
  · simp [Nat.log2_zero, hk]
  · rw [← Nat.log2_lt (by omega)]
    omega

theorem lt_pow_length_shortest (n : Nat) : n < 256 ^ (shortest n).length :=
  (length_shortest_le_iff (length_shortest_pos n) n).mp le_rfl

theorem valueOf_shortest (n : Nat) : valueOf (shortest n) = n := by
  have h := lt_pow_length_shortest n
  rw [length_shortest] at h
  rw [shortest, valueOf_bigEndian, Nat.mod_eq_of_lt h]

theorem length_shortest_mono {m n : Nat} (h : m ≤ n) :
    (shortest m).length ≤ (shortest n).length :=
  (length_shortest_le_iff (length_shortest_pos n) m).mpr (h.trans_lt (lt_pow_length_shortest n))

/-- The shortest bytes of a value are the only ones of their length. -/
theorem shortest_valueOf_of_length {bytes : List UInt8}
    (h : (shortest (valueOf bytes)).length = bytes.length) : shortest (valueOf bytes) = bytes := by
  rw [length_shortest] at h
  rw [shortest, h, bigEndian_valueOf]

/-- Bytes that do not start with a zero are the shortest bytes of their value. -/
theorem shortest_valueOf_cons {b : UInt8} (hb : b ≠ 0) (bytes : List UInt8) :
    shortest (valueOf (b :: bytes)) = b :: bytes := by
  have hpos : 1 ≤ b.toNat := by
    have h0 : b.toNat ≠ 0 := fun h => hb (UInt8.toNat_inj.mp h)
    omega
  have hle : (shortest (valueOf (b :: bytes))).length ≤ (b :: bytes).length :=
    (length_shortest_le_iff (by simp) _).mpr (valueOf_lt _)
  have hge : ¬ (shortest (valueOf (b :: bytes))).length ≤ bytes.length := by
    intro h
    have hlen : 1 ≤ bytes.length := le_trans (length_shortest_pos _) h
    have hlt := (length_shortest_le_iff hlen _).mp h
    have hlow : 1 * 256 ^ bytes.length ≤ b.toNat * 256 ^ bytes.length :=
      Nat.mul_le_mul_right _ hpos
    rw [valueOf_cons] at hlt
    omega
  refine shortest_valueOf_of_length ?_
  rw [List.length_cons] at hle ⊢
  omega

/-! ### Leading zeros -/

theorem valueOf_trimZeros (bytes : List UInt8) : valueOf (trimZeros bytes) = valueOf bytes := by
  induction bytes with
  | nil => rfl
  | cons b bytes ih =>
    by_cases hb : b = 0
    · subst hb
      have hz : trimZeros (0 :: bytes) = trimZeros bytes := by simp [trimZeros]
      rw [hz, ih, valueOf_cons]
      simp
    · have hz : trimZeros (b :: bytes) = b :: bytes := by simp [trimZeros, hb]
      rw [hz]

theorem head_trimZeros_ne {bytes rest : List UInt8} {b : UInt8}
    (h : trimZeros bytes = b :: rest) : b ≠ 0 := by
  intro hb
  have hhead := List.head?_dropWhile_not (· == (0 : UInt8)) bytes
  rw [trimZeros] at h
  rw [h] at hhead
  simp [hb] at hhead

end Bytes

namespace Operand

open Bytes

theorem minimal_eq_shortest (bytes : List UInt8) : minimal bytes = shortest (valueOf bytes) := by
  rw [← valueOf_trimZeros]
  cases h : trimZeros bytes with
  | nil => simp [minimal, h]; rfl
  | cons b rest =>
    rw [shortest_valueOf_cons (head_trimZeros_ne h)]
    simp [minimal, h]

/-! ### Encoding -/

theorem encode_empty {v : Operand} (h : v.bytes = []) :
    v.encode = .error (.invalidOperand "0x") := by
  rw [encode, if_pos h]

theorem encode_of_lt {v : Operand} (h : v.bytes ≠ []) (hv : valueOf v.bytes < 256 ^ maxPush) :
    v.encode = .ok (shortest (valueOf v.bytes)) := by
  have hlen := (length_shortest_le_iff (k := maxPush) (by decide) _).mpr hv
  rw [encode, if_neg h, minimal_eq_shortest]
  exact if_pos hlen

theorem encode_of_le {v : Operand} (hv : 256 ^ maxPush ≤ valueOf v.bytes) :
    ∃ fault, v.encode = .error fault := by
  have hlen : ¬ (shortest (valueOf v.bytes)).length ≤ maxPush := by
    rw [length_shortest_le_iff (by decide)]
    exact Nat.not_lt.mpr hv
  by_cases h : v.bytes = []
  · exact ⟨_, encode_empty h⟩
  · refine ⟨.invalidOperand ("0x" ++ hexOf (shortest (valueOf v.bytes))), ?_⟩
    rw [encode, if_neg h, minimal_eq_shortest]
    exact if_neg hlen

theorem encode_eq_error {v : Operand} {fault : Fault} (h : v.encode = .error fault) :
    ∃ operand, fault = .invalidOperand operand := by
  rw [encode] at h
  split at h
  · exact ⟨_, (Except.error.inj h).symm⟩
  · dsimp only at h
    split at h
    · cases h
    · exact ⟨_, (Except.error.inj h).symm⟩

/-- A number below `256 ^ 32` is pushed in as few bytes as it needs. -/
theorem encode_ofNat {n : Nat} (h : n < 256 ^ maxPush) : (ofNat n).encode = .ok (shortest n) := by
  have hv : valueOf (ofNat n).bytes = n := valueOf_shortest n
  rw [encode_of_lt (v := ofNat n) (shortest_ne_nil n) (by rwa [hv]), hv]

end Operand

end BytecodeAssembler
