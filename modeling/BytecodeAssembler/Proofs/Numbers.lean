import BytecodeAssembler.Proofs.Literals

/-!
# Push operands mean their number

An operand comes from text, from bytes or from a machine word (`Operand.Origin`), and each of them
stands for a number in its own way: `Origin.Denotes` says so without the bytes the operand is made
of. Those bytes have the number as their value (`Origin.Denotes.valueOf_eq`), and the immediate
depends on the value alone. So it does not matter for a push where its number comes from.
-/

namespace BytecodeAssembler

open Text

namespace Bytes

/-- The big-endian bytes of a number with no zero in front, or the one byte of the number zero. -/
structure Minimal (n : Nat) (bytes : List UInt8) : Prop where
  value : valueOf bytes = n
  nonempty : bytes ≠ []
  head : ∀ rest, bytes = 0 :: rest → rest = []

theorem minimal_iff {n : Nat} {bytes : List UInt8} : Minimal n bytes ↔ bytes = shortest n := by
  constructor
  · rintro ⟨rfl, hne, hhead⟩
    cases bytes with
    | nil => exact absurd rfl hne
    | cons b rest =>
      by_cases hb : b = 0
      · subst hb
        rw [hhead rest rfl]
        rfl
      · exact (shortest_valueOf_cons hb rest).symm
  · rintro rfl
    refine ⟨valueOf_shortest n, shortest_ne_nil n, fun rest hrest => ?_⟩
    -- the byte in front is the only one there is room for
    by_contra hne
    have hlt := valueOf_lt rest
    have hvalue : valueOf rest = n := by
      have h := valueOf_shortest n
      rw [hrest, valueOf_cons] at h
      simpa using h
    have hpos : 1 ≤ rest.length := List.length_pos_iff.mpr hne
    have hshort : (shortest n).length ≤ rest.length :=
      (length_shortest_le_iff hpos n).mpr (hvalue ▸ hlt)
    rw [hrest, List.length_cons] at hshort
    omega

end Bytes

open Bytes

namespace Operand

/-! ### Encoding by value -/

section Encoding

variable {v w : Operand}

theorem encode_eq_ok_iff {bytes : List UInt8} :
    v.encode = .ok bytes ↔
      v.bytes ≠ [] ∧ valueOf v.bytes < 256 ^ maxPush ∧ Minimal (valueOf v.bytes) bytes := by
  rw [minimal_iff]
  by_cases hne : v.bytes = []
  · simp [encode_empty hne, hne]
  · by_cases hlt : valueOf v.bytes < 256 ^ maxPush
    · rw [encode_of_lt hne hlt, Except.ok.injEq]
      exact ⟨fun h => ⟨hne, hlt, h.symm⟩, fun h => h.2.2.symm⟩
    · obtain ⟨fault, hfault⟩ := encode_of_le (Nat.not_lt.mp hlt)
      simp [hfault, hlt]

theorem exists_encode_eq_error_iff :
    (∃ text, v.encode = .error (.invalidOperand text)) ↔
      v.bytes = [] ∨ 256 ^ maxPush ≤ valueOf v.bytes := by
  constructor
  · rintro ⟨text, htext⟩
    by_contra h
    rw [not_or, Nat.not_le] at h
    rw [encode_of_lt h.1 h.2] at htext
    cases htext
  · rintro (hempty | hle)
    · exact ⟨_, encode_empty hempty⟩
    · obtain ⟨fault, hfault⟩ := encode_of_le hle
      obtain ⟨text, rfl⟩ := encode_eq_error hfault
      exact ⟨text, hfault⟩

/-- The immediate, or why there is none, depends on the value alone. -/
theorem encode_congr (hv : v.bytes ≠ []) (hw : w.bytes ≠ [])
    (h : valueOf v.bytes = valueOf w.bytes) : v.encode = w.encode := by
  rw [encode, encode, if_neg hv, if_neg hw, minimal_eq_shortest, minimal_eq_shortest, h]

end Encoding

/-! ### Origins -/

/-- Where a push operand comes from. -/
inductive Origin
  /-- Text to be read. -/
  | text (cs : List Char)
  /-- Bytes, most significant first. -/
  | given (bs : List UInt8)
  /-- A machine word of some bytes. -/
  | word (width : Nat) (hwidth : 0 < width) (n : Fin (256 ^ width))

/-- The operand of an origin, if it has one. -/
def Origin.operand : Origin → Except Fault Operand
  | .text cs => parse cs
  | .given bs => .ok ⟨bs⟩
  | .word width _ n => .ok (ofWord width n)

/-- The number an origin stands for. -/
inductive Origin.Denotes : Origin → Nat → Prop
  /-- Decimal digits. -/
  | decimal {cs : List Char} : cs ≠ [] → (∀ c ∈ cs, isDigit c) →
      Denotes (.text cs) (numeral 10 (cs.map digitValue))
  /-- Hexadecimal digits of either case behind `0x`, perhaps none. -/
  | hex {x : Char} {cs : List Char} {vs : List Nat} : x = 'x' ∨ x = 'X' →
      cs.map hexValue? = vs.map some → Denotes (.text ('0' :: x :: cs)) (numeral 16 vs)
  /-- Bytes as a big-endian number. -/
  | given (bs : List UInt8) : Denotes (.given bs) (valueOf bs)
  /-- A machine word. -/
  | word {width : Nat} (hwidth : 0 < width) (n : Fin (256 ^ width)) :
      Denotes (.word width hwidth n) n

namespace Origin

theorem exists_denotes {origin : Origin} {v : Operand} (h : origin.operand = .ok v) :
    ∃ n, origin.Denotes n := by
  cases origin with
  | text cs =>
    cases parse_eq_ok_iff.mp h with
    | decimal hne hall => exact ⟨_, .decimal hne hall⟩
    | hex hx hvs => exact ⟨_, .hex hx hvs⟩
  | given bs => exact ⟨_, .given bs⟩
  | word width hwidth n => exact ⟨_, .word hwidth n⟩

theorem Denotes.exists_operand {origin : Origin} {n : Nat} (h : origin.Denotes n) :
    ∃ v, origin.operand = .ok v := by
  cases h with
  | decimal hne hall => exact ⟨_, parse_eq_ok_iff.mpr (.decimal hne hall)⟩
  | hex hx hvs => exact ⟨_, parse_eq_ok_iff.mpr (.hex hx hvs)⟩
  | given bs => exact ⟨_, rfl⟩
  | word hwidth n => exact ⟨_, rfl⟩

/-- **The bytes of an operand have the number of its origin as their value.** -/
theorem Denotes.valueOf_eq {origin : Origin} {n : Nat} {v : Operand} (h : origin.Denotes n)
    (hv : origin.operand = .ok v) : valueOf v.bytes = n := by
  cases h with
  | decimal hne hall =>
    have hparse := parse_eq_ok_iff.mpr (.decimal hne hall)
    obtain rfl := Except.ok.inj (hparse.symm.trans hv)
    exact valueOf_shortest _
  | @hex x cs vs hx hvs =>
    have hparse := parse_eq_ok_iff.mpr (.hex hx hvs)
    obtain rfl := Except.ok.inj (hparse.symm.trans hv)
    have hlen : cs.length = vs.length := by simpa using congrArg List.length hvs
    have hlt : numeral 16 vs < 256 ^ ((cs.length + 1) / 2) :=
      calc numeral 16 vs
          < 16 ^ vs.length := numeral_lt (lt_of_map_hexValue? hvs)
        _ ≤ 16 ^ (2 * ((cs.length + 1) / 2)) := Nat.pow_le_pow_right (by decide) (by omega)
        _ = 256 ^ ((cs.length + 1) / 2) := Nat.pow_mul 16 2 _
    show valueOf (bigEndian _ _) = _
    rw [valueOf_bigEndian, Nat.mod_eq_of_lt hlt]
  | given bs =>
    obtain rfl := Except.ok.inj hv
    rfl
  | word hwidth n =>
    obtain rfl := Except.ok.inj hv
    show valueOf (bigEndian _ _) = _
    rw [valueOf_bigEndian, Nat.mod_eq_of_lt n.isLt]

theorem bytes_eq_nil_iff {origin : Origin} {v : Operand} (h : origin.operand = .ok v) :
    v.bytes = [] ↔
      origin = .text ['0', 'x'] ∨ origin = .text ['0', 'X'] ∨ origin = .given [] := by
  cases origin with
  | text cs =>
    cases parse_eq_ok_iff.mp h with
    | decimal hne hall =>
      have hx : ¬ isDigit 'x' := by decide
      have hX : ¬ isDigit 'X' := by decide
      simp only [ofNat, shortest_ne_nil, text.injEq, reduceCtorEq, or_false, false_iff, not_or]
      exact ⟨fun hcs => hx (hall 'x' (by simp [hcs])), fun hcs => hX (hall 'X' (by simp [hcs]))⟩
    | @hex x cs vs hx hvs =>
      have hwidth : (bigEndian ((cs.length + 1) / 2) (numeral 16 vs) = []) ↔ cs = [] := by
        rw [← List.length_eq_zero_iff, length_bigEndian, ← List.length_eq_zero_iff]
        omega
      rcases hx with rfl | rfl
      · simpa [ofWord] using hwidth
      · simpa [ofWord] using hwidth
  | given bs =>
    obtain rfl := Except.ok.inj h
    simp
  | word width hwidth n =>
    obtain rfl := Except.ok.inj h
    have hne : bigEndian width n ≠ [] := by
      rw [← List.length_pos_iff, length_bigEndian]
      exact hwidth
    simpa [ofWord] using hne

end Origin

end Operand

open Operand

/-- **A push means its number.** An operand stands for one number. If it has any bytes and the
number is below `2 ^ 256` then its immediate is the one minimal form of the number, and otherwise it
is refused; it has no bytes only if the literal is `0x` or no bytes were given. All operands of one
number do the same to every session. -/
theorem push_means_number {origin : Origin} {v : Operand} (h : origin.operand = .ok v) :
    ∃ n, origin.Denotes n ∧ (∀ m, origin.Denotes m → m = n) ∧
      (v.bytes = [] ↔
        origin = .text ['0', 'x'] ∨ origin = .text ['0', 'X'] ∨ origin = .given []) ∧
      (v.bytes ≠ [] → n < 2 ^ 256 → ∃ bytes, v.encode = .ok bytes ∧ Minimal n bytes ∧
        (∀ other, Minimal n other → other = bytes) ∧
        ∀ s : Session, s.perform (.push v) = (s.emit (.push bytes), none)) ∧
      ((∃ text, v.encode = .error (.invalidOperand text)) ↔ v.bytes = [] ∨ 2 ^ 256 ≤ n) ∧
      ∀ origin' : Origin, origin'.Denotes n → ∃ w, origin'.operand = .ok w ∧
        (v.bytes ≠ [] → w.bytes ≠ [] →
          ∀ s : Session, s.perform (.push w) = s.perform (.push v)) := by
  obtain ⟨n, hn⟩ := Origin.exists_denotes h
  have hpow : 256 ^ maxPush = 2 ^ 256 := by decide
  have hvalue := hn.valueOf_eq h
  refine ⟨n, hn, fun m hm => (hm.valueOf_eq h).symm.trans hvalue, Origin.bytes_eq_nil_iff h,
    fun hne hlt => ?_, ?_, fun origin' hn' => ?_⟩
  · have hencode : v.encode = .ok (shortest n) :=
      encode_eq_ok_iff.mpr ⟨hne, by rwa [hvalue, hpow], minimal_iff.mpr (by rw [hvalue])⟩
    refine ⟨shortest n, hencode, minimal_iff.mpr rfl, fun other => minimal_iff.mp, fun s => ?_⟩
    rw [Session.perform, hencode]
  · rw [exists_encode_eq_error_iff, hvalue, hpow]
  · obtain ⟨w, hw⟩ := hn'.exists_operand
    refine ⟨w, hw, fun hne hne' s => ?_⟩
    rw [Session.perform, Session.perform,
      encode_congr hne' hne ((hn'.valueOf_eq hw).trans hvalue.symm)]

/-- The number 2748 in hexadecimal digits and in a word of four bytes. -/
theorem push_means_number_hex :
    (Origin.text ['0', 'x', '0', 'a', 'B', 'c']).operand = .ok ⟨[0x0A, 0xBC]⟩ ∧
    ∃ w, (Origin.word 4 (by decide) ⟨2748, by decide⟩).operand = .ok w ∧
      ∀ s : Session, s.perform (.push w) = (s.emit (.push [0x0A, 0xBC]), none) := by
  have hhex : (Origin.text ['0', 'x', '0', 'a', 'B', 'c']).Denotes 2748 :=
    @Origin.Denotes.hex 'x' ['0', 'a', 'B', 'c'] [0, 10, 11, 12] (Or.inl rfl) rfl
  have hword : (Origin.word 4 (by decide) ⟨2748, by decide⟩).Denotes 2748 := .word _ _
  have hoperand : (Origin.text ['0', 'x', '0', 'a', 'B', 'c']).operand = .ok ⟨[0x0A, 0xBC]⟩ := rfl
  obtain ⟨n, -, hunique, -, hok, -, hother⟩ := push_means_number hoperand
  obtain rfl := hunique 2748 hhex
  obtain ⟨bytes, hencode, -, -, hperform⟩ := hok (by decide) (by decide)
  obtain rfl : [0x0A, 0xBC] = bytes := Except.ok.inj hencode
  obtain ⟨w, hw, hsame⟩ := hother _ hword
  refine ⟨hoperand, w, hw, fun s => ?_⟩
  obtain rfl := Except.ok.inj hw
  exact (hsame (by decide) (by decide) s).trans (hperform s)

end BytecodeAssembler
