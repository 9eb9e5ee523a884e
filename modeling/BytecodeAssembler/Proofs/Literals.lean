import BytecodeAssembler.Proofs.Operand
import BytecodeAssembler.Statement

/-!
# Numerals in source text

What the literals of a line are and what they stand for, without the way in which they are read:

* `numeral base digits` — the number of digits in a base;
* `PushLiteral cs v` — `cs` is decimal digits, and `v` the shortest bytes of their number, or `cs`
  is hexadecimal digits behind `0x`, and `v` their number in half as many bytes;
* `IndexLiteral cs n` — `cs` is decimal digits, perhaps behind a `+`, of the number `n`.

Reading finds just these (`Operand.parse_eq_ok_iff`, `readIndex_eq_ok_iff`). Decimal digits are read
without leaving the bytes: times ten, plus the next digit, byte by byte (`ofDecimal_eq_shortest`).
-/

namespace BytecodeAssembler

namespace Text

/-- The number that digits stand for in a base, most significant digit first. -/
def numeral (base : Nat) (digits : List Nat) : Nat :=
  digits.foldl (fun n d => n * base + d) 0

theorem numeral_concat (base : Nat) (digits : List Nat) (d : Nat) :
    numeral base (digits ++ [d]) = numeral base digits * base + d := by
  simp [numeral]

theorem numeral_cons (base d : Nat) (digits : List Nat) :
    numeral base (d :: digits) = d * base ^ digits.length + numeral base digits := by
  induction digits using List.reverseRecOn with
  | nil => simp [numeral]
  | append_singleton digits e ih =>
    rw [← List.cons_append, numeral_concat, numeral_concat, ih, List.length_append,
      List.length_singleton, Nat.pow_succ]
    ring

theorem numeral_lt {base : Nat} {digits : List Nat} (h : ∀ d ∈ digits, d < base) :
    numeral base digits < base ^ digits.length := by
  induction digits with
  | nil => simp [numeral]
  | cons d digits ih =>
    have hd : d + 1 ≤ base := h d List.mem_cons_self
    have hrest := ih fun e he => h e (List.mem_cons_of_mem _ he)
    have hstep : (d + 1) * base ^ digits.length ≤ base * base ^ digits.length :=
      Nat.mul_le_mul_right _ hd
    rw [numeral_cons, List.length_cons, Nat.pow_succ]
    linarith

theorem toNat_of_isDigit {c : Char} (h : isDigit c) : 48 ≤ c.toNat ∧ c.toNat ≤ 57 := by
  simp only [isDigit, Bool.and_eq_true, decide_eq_true_eq, Char.le_def, UInt32.le_iff_toNat_le] at h
  exact h

theorem digitValue_lt_ten {c : Char} (h : isDigit c) : digitValue c < 10 := by
  obtain ⟨-, hnine⟩ := toNat_of_isDigit h
  have hzero : '0'.toNat = 48 := rfl
  rw [digitValue, hzero]
  omega

theorem lt_ten_of_digits {cs : List Char} (h : ∀ c ∈ cs, isDigit c) :
    ∀ d ∈ cs.map digitValue, d < 10 := by
  intro d hd
  obtain ⟨c, hc, rfl⟩ := List.mem_map.mp hd
  exact digitValue_lt_ten (h c hc)

theorem decimalDigits?_eq_some_iff {cs : List Char} {digits : List Nat} :
    decimalDigits? cs = some digits ↔
      cs ≠ [] ∧ (∀ c ∈ cs, isDigit c) ∧ cs.map digitValue = digits := by
  rw [decimalDigits?]
  split
  · next h =>
    rw [List.all_eq_true] at h
    simpa [h.1] using fun _ => h.2
  · next h =>
    rw [List.all_eq_true] at h
    simp only [reduceCtorEq, false_iff]
    rintro ⟨hne, hall, -⟩
    exact h ⟨hne, hall⟩

theorem readDecimal?_eq_some_iff {cs : List Char} {n : Nat} :
    readDecimal? cs = some n ↔
      cs ≠ [] ∧ (∀ c ∈ cs, isDigit c) ∧ numeral 10 (cs.map digitValue) = n := by
  rw [readDecimal?, Option.map_eq_some_iff]
  constructor
  · rintro ⟨digits, hdigits, hvalue⟩
    obtain ⟨hne, hall, rfl⟩ := decimalDigits?_eq_some_iff.mp hdigits
    exact ⟨hne, hall, hvalue⟩
  · rintro ⟨hne, hall, hvalue⟩
    exact ⟨_, decimalDigits?_eq_some_iff.mpr ⟨hne, hall, rfl⟩, hvalue⟩

end Text

open Text

namespace Bytes

/-! ### Decimal digits -/

/-- Times ten plus a carry, byte by byte: what is carried out in front stays below ten. -/
theorem timesTenPlus_spec {carry : Nat} (hcarry : carry ≤ 9) (bytes : List UInt8) :
    (timesTenPlus carry bytes).1 ≤ 9 ∧ (timesTenPlus carry bytes).2.length = bytes.length ∧
      (timesTenPlus carry bytes).1 * 256 ^ bytes.length + valueOf (timesTenPlus carry bytes).2 =
        valueOf bytes * 10 + carry := by
  induction bytes with
  | nil => simpa [timesTenPlus, valueOf] using hcarry
  | cons b bytes ih =>
    have hb : b.toNat < 256 := b.toNat_lt
    rcases hrest : timesTenPlus carry bytes with ⟨up, low⟩
    rw [hrest] at ih
    obtain ⟨hup, hlen, hvalue⟩ := ih
    simp only at hup hlen hvalue
    rw [timesTenPlus, hrest]
    have hlow : (UInt8.ofNat (b.toNat * 10 + up)).toNat = (b.toNat * 10 + up) % 256 := by simp
    have hsplit : (b.toNat * 10 + up) / 256 * 256 + (b.toNat * 10 + up) % 256 =
        b.toNat * 10 + up := Nat.div_add_mod' _ _
    refine ⟨?_, ?_, ?_⟩
    · show (b.toNat * 10 + up) / 256 ≤ 9
      omega
    · show low.length + 1 = bytes.length + 1
      rw [hlen]
    · show (b.toNat * 10 + up) / 256 * 256 ^ (bytes.length + 1) +
        valueOf (UInt8.ofNat (b.toNat * 10 + up) :: low) = valueOf (b :: bytes) * 10 + carry
      rw [valueOf_cons, valueOf_cons, hlow, hlen, Nat.pow_succ]
      calc (b.toNat * 10 + up) / 256 * (256 ^ bytes.length * 256) +
              ((b.toNat * 10 + up) % 256 * 256 ^ bytes.length + valueOf low)
          = ((b.toNat * 10 + up) / 256 * 256 + (b.toNat * 10 + up) % 256) * 256 ^ bytes.length +
              valueOf low := by ring
        _ = b.toNat * 10 * 256 ^ bytes.length + (up * 256 ^ bytes.length + valueOf low) := by
            rw [hsplit]
            ring
        _ = (b.toNat * 256 ^ bytes.length + valueOf bytes) * 10 + carry := by
            rw [hvalue]
            ring

/-- **One more digit keeps the bytes the shortest of their number.** -/
theorem appendDecimal_shortest {d : Nat} (hd : d < 10) (n : Nat) :
    appendDecimal (shortest n) d = shortest (n * 10 + d) := by
  have hspec := timesTenPlus_spec (Nat.le_of_lt_succ hd) (shortest n)
  rcases hrest : timesTenPlus d (shortest n) with ⟨up, low⟩
  rw [hrest, valueOf_shortest] at hspec
  obtain ⟨hup, hlen, hvalue⟩ := hspec
  simp only at hup hlen hvalue
  rw [appendDecimal, hrest]
  by_cases hzero : up = 0
  · -- nothing is carried out, and the number has no fewer bytes than before
    have hlow : valueOf low = n * 10 + d := by simpa [hzero] using hvalue
    have hle : (shortest (valueOf low)).length ≤ low.length := by
      rw [length_shortest_le_iff (hlen ▸ length_shortest_pos n)]
      exact valueOf_lt low
    have hge : (shortest n).length ≤ (shortest (valueOf low)).length :=
      length_shortest_mono (by omega)
    have hshortest := shortest_valueOf_of_length (Nat.le_antisymm hle (hlen ▸ hge))
    rw [← hlow, hshortest]
    exact if_pos hzero
  · have hbyte : (UInt8.ofNat up).toNat = up := by
      rw [UInt8.toNat_ofNat']
      omega
    have hne : UInt8.ofNat up ≠ 0 := by
      intro h0
      rw [h0] at hbyte
      exact hzero hbyte.symm
    have hall : valueOf (UInt8.ofNat up :: low) = n * 10 + d := by
      rw [valueOf_cons, hbyte, hlen, hvalue]
    rw [← hall, shortest_valueOf_cons hne]
    exact if_neg hzero

theorem ofDecimal_eq_shortest {digits : List Nat} (h : ∀ d ∈ digits, d < 10) :
    ofDecimal digits = shortest (numeral 10 digits) := by
  induction digits using List.reverseRecOn with
  | nil => rfl
  | append_singleton digits d ih =>
    have hdigits := ih fun e he => h e (List.mem_append_left _ he)
    have hd : d < 10 := h d (by simp)
    rw [ofDecimal, List.foldl_append, ← ofDecimal, hdigits, numeral_concat]
    exact appendDecimal_shortest hd _

/-! ### Hexadecimal digits -/

theorem hexValue?_lt {c : Char} {v : Nat} (h : hexValue? c = some v) : v < 16 := by
  have hc : c.toNat = c.val.toNat := rfl
  simp only [hexValue?, Char.le_def, UInt32.le_iff_toNat_le, Char.reduceVal, UInt32.reduceToNat,
    ← hc] at h
  split at h
  · obtain rfl := Option.some.inj h
    omega
  · split at h
    · obtain rfl := Option.some.inj h
      omega
    · split at h
      · obtain rfl := Option.some.inj h
        omega
      · cases h

theorem lt_of_map_hexValue? {cs : List Char} {vs : List Nat} (h : cs.map hexValue? = vs.map some) :
    ∀ v ∈ vs, v < 16 := by
  intro v hv
  have hmem : some v ∈ cs.map hexValue? := by
    rw [h]
    exact List.mem_map_of_mem hv
  obtain ⟨c, -, hc⟩ := List.mem_map.mp hmem
  exact hexValue?_lt hc

theorem bigEndian_cons (b : UInt8) {width n : Nat} (h : n < 256 ^ width) :
    bigEndian (width + 1) (b.toNat * 256 ^ width + n) = b :: bigEndian width n := by
  have hbytes := bigEndian_valueOf (b :: bigEndian width n)
  rw [valueOf_cons, valueOf_bigEndian, List.length_cons, length_bigEndian,
    Nat.mod_eq_of_lt h] at hbytes
  exact hbytes

theorem numeral_sixteen_lt {k : Nat} {vs : List Nat} (hlen : vs.length = 2 * k)
    (h : ∀ v ∈ vs, v < 16) : numeral 16 vs < 256 ^ k := by
  have hlt := numeral_lt h
  rwa [hlen, Nat.pow_mul] at hlt

/-- Two digits in front of an even number of digits are a byte in front of half as many. -/
theorem numeral_sixteen_pair {v w k : Nat} {vs : List Nat} (hv : v < 16) (hw : w < 16)
    (hlen : vs.length = 2 * k) :
    numeral 16 (v :: w :: vs) = (UInt8.ofNat (v * 16 + w)).toNat * 256 ^ k + numeral 16 vs := by
  have hbyte : (UInt8.ofNat (v * 16 + w)).toNat = v * 16 + w := by
    rw [UInt8.toNat_ofNat']
    omega
  have hpow : 16 ^ vs.length = 256 ^ k := by rw [hlen, Nat.pow_mul]
  rw [numeral_cons, numeral_cons, List.length_cons, Nat.pow_succ, hpow, hbyte]
  ring

/-- Pairs of digits are the bytes of their number, half as many. -/
theorem readHex?_of_values {cs : List Char} {vs : List Nat} (h : cs.map hexValue? = vs.map some)
    (heven : cs.length % 2 = 0) :
    readHex? cs = some (bigEndian (cs.length / 2) (numeral 16 vs)) := by
  fun_induction readHex? cs generalizing vs with
  | case1 =>
    obtain rfl : vs = [] := by simpa using h
    rfl
  | case2 c => simp at heven
  | case3 high low rest ih =>
    obtain ⟨v, w, vs, rfl⟩ : ∃ v w vs', vs = v :: w :: vs' := by
      rcases vs with _ | ⟨v, _ | ⟨w, vs⟩⟩
      · simp at h
      · simp at h
      · exact ⟨v, w, vs, rfl⟩
    have hlt := lt_of_map_hexValue? h
    simp only [List.map_cons, List.cons.injEq] at h
    obtain ⟨hhigh, hlow, hrest⟩ := h
    have hparity : rest.length % 2 = 0 := by
      simp only [List.length_cons] at heven
      omega
    have hlen : vs.length = 2 * (rest.length / 2) := by
      have hsame : rest.length = vs.length := by simpa using congrArg List.length hrest
      omega
    have hnumber : numeral 16 vs < 256 ^ (rest.length / 2) :=
      numeral_sixteen_lt hlen fun e he => hlt e (by simp [he])
    have hvalue := numeral_sixteen_pair (hlt v (by simp)) (hlt w (by simp)) hlen
    have hwidth : (high :: low :: rest).length / 2 = rest.length / 2 + 1 := by
      simp only [List.length_cons]
      omega
    rw [hhigh, hlow, ih hrest hparity, hwidth, hvalue, bigEndian_cons _ hnumber]
    rfl

theorem values_of_readHex? {cs : List Char} {bytes : List UInt8} (h : readHex? cs = some bytes) :
    ∃ vs : List Nat, cs.map hexValue? = vs.map some := by
  fun_induction readHex? cs generalizing bytes with
  | case1 => exact ⟨[], rfl⟩
  | case2 c => cases h
  | case3 high low rest ih =>
    simp only [bind, Option.bind_eq_some_iff] at h
    obtain ⟨v, hv, w, hw, tail, htail, -⟩ := h
    obtain ⟨vs, hvs⟩ := ih htail
    exact ⟨v :: w :: vs, by simp [hv, hw, hvs]⟩

theorem hexValue?_hexDigit : ∀ n < 16, hexValue? (hexDigit n) = some n := by
  decide

/-- Bytes are read back from their digits. -/
theorem readHex?_hexDigits (bytes : List UInt8) : readHex? (hexDigits bytes) = some bytes := by
  induction bytes with
  | nil => rfl
  | cons b bytes ih =>
    have hb : b.toNat < 256 := b.toNat_lt
    have hhigh := hexValue?_hexDigit (b.toNat / 16) (by omega)
    have hlow := hexValue?_hexDigit (b.toNat % 16) (by omega)
    have hbyte : UInt8.ofNat (b.toNat / 16 * 16 + b.toNat % 16) = b := by
      rw [Nat.div_add_mod', UInt8.ofNat_toNat]
    have hdigits : hexDigits (b :: bytes) =
        hexDigit (b.toNat / 16) :: hexDigit (b.toNat % 16) :: hexDigits bytes := rfl
    rw [hdigits, readHex?, hhigh, hlow, ih]
    exact congrArg (fun c => some (c :: bytes)) hbyte

theorem length_hexDigits (bytes : List UInt8) : (hexDigits bytes).length = 2 * bytes.length := by
  induction bytes with
  | nil => rfl
  | cons b bytes ih =>
    rw [hexDigits, List.flatMap_cons, List.length_append, ← hexDigits, ih, List.length_cons,
      hexPair]
    simp only [List.length_cons, List.length_nil]
    omega

end Bytes

namespace Operand

open Bytes

theorem hexBytes?_of_values {cs : List Char} {vs : List Nat} (h : cs.map hexValue? = vs.map some) :
    hexBytes? cs = some (bigEndian ((cs.length + 1) / 2) (numeral 16 vs)) := by
  rw [hexBytes?]
  split
  · next hodd =>
    have hpadded : ('0' :: cs).map hexValue? = (0 :: vs).map some := by
      rw [List.map_cons, h]
      rfl
    have heven : ('0' :: cs).length % 2 = 0 := by
      rw [List.length_cons]
      omega
    rw [readHex?_of_values hpadded heven, List.length_cons, numeral_cons, Nat.zero_mul,
      Nat.zero_add]
  · next heven =>
    have hhalf : (cs.length + 1) / 2 = cs.length / 2 := by omega
    rw [readHex?_of_values h (by omega), hhalf]

theorem values_of_hexBytes? {cs : List Char} {bytes : List UInt8} (h : hexBytes? cs = some bytes) :
    ∃ vs : List Nat, cs.map hexValue? = vs.map some := by
  obtain ⟨vs, hvs⟩ := values_of_readHex? h
  split at hvs
  · cases vs with
    | nil => simp at hvs
    | cons v vs => exact ⟨vs, (List.cons.inj hvs).2⟩
  · exact ⟨vs, hvs⟩

end Operand

/-! ### Literals -/

/-- The text of a push operand, and the operand it is read as. -/
inductive PushLiteral : List Char → Operand → Prop
  | decimal {cs : List Char} : cs ≠ [] → (∀ c ∈ cs, isDigit c) →
      PushLiteral cs (.ofNat (numeral 10 (cs.map digitValue)))
  | hex {x : Char} {cs : List Char} {vs : List Nat} : x = 'x' ∨ x = 'X' →
      cs.map Bytes.hexValue? = vs.map some →
      PushLiteral ('0' :: x :: cs) (.ofWord ((cs.length + 1) / 2) (numeral 16 vs))

/-- The text of a stack index, and the index it is read as. -/
inductive IndexLiteral : List Char → UInt8 → Prop
  | mk {sign cs : List Char} {n : UInt8} : sign = [] ∨ sign = ['+'] → cs ≠ [] →
      (∀ c ∈ cs, isDigit c) → numeral 10 (cs.map digitValue) = n.toNat → IndexLiteral (sign ++ cs) n

namespace Operand

theorem literalBytes?_of_digits {cs : List Char} (h : ∀ c ∈ cs, isDigit c) :
    literalBytes? cs = (decimalDigits? cs).map Bytes.ofDecimal := by
  unfold literalBytes?
  split
  · exact absurd (h 'x' (by simp)) (by decide)
  · exact absurd (h 'X' (by simp)) (by decide)
  · rfl

theorem literalBytes?_eq_some_iff {cs : List Char} {bytes : List UInt8} :
    literalBytes? cs = some bytes ↔ PushLiteral cs ⟨bytes⟩ := by
  constructor
  · intro h
    unfold literalBytes? at h
    split at h
    · next digits =>
      obtain ⟨vs, hvs⟩ := values_of_hexBytes? h
      obtain rfl := Option.some.inj ((hexBytes?_of_values hvs).symm.trans h)
      exact .hex (Or.inl rfl) hvs
    · next digits =>
      obtain ⟨vs, hvs⟩ := values_of_hexBytes? h
      obtain rfl := Option.some.inj ((hexBytes?_of_values hvs).symm.trans h)
      exact .hex (Or.inr rfl) hvs
    · obtain ⟨digits, hdigits, rfl⟩ := Option.map_eq_some_iff.mp h
      obtain ⟨hne, hall, rfl⟩ := decimalDigits?_eq_some_iff.mp hdigits
      rw [Bytes.ofDecimal_eq_shortest (lt_ten_of_digits hall)]
      exact .decimal hne hall
  · intro h
    generalize hv : (⟨bytes⟩ : Operand) = v at h
    cases h with
    | decimal hne hall =>
      obtain rfl : bytes = Bytes.shortest (numeral 10 (cs.map digitValue)) :=
        congrArg Operand.bytes hv
      rw [literalBytes?_of_digits hall, decimalDigits?_eq_some_iff.mpr ⟨hne, hall, rfl⟩,
        Option.map_some, Bytes.ofDecimal_eq_shortest (lt_ten_of_digits hall)]
    | @hex x digits vs hx hvs =>
      obtain rfl : bytes = Bytes.bigEndian ((digits.length + 1) / 2) (numeral 16 vs) :=
        congrArg Operand.bytes hv
      rcases hx with rfl | rfl
      · exact hexBytes?_of_values hvs
      · exact hexBytes?_of_values hvs

/-- **Reading a push operand finds the literals**, and refuses all other text as it stands. -/
theorem parse_eq_ok_iff {cs : List Char} {v : Operand} :
    parse cs = .ok v ↔ PushLiteral cs v := by
  rw [parse]
  cases h : literalBytes? cs with
  | some bytes =>
    constructor
    · intro hv
      obtain rfl := Except.ok.inj hv
      exact literalBytes?_eq_some_iff.mp h
    · intro hv
      have hbytes := literalBytes?_eq_some_iff.mpr hv
      rw [h] at hbytes
      rw [Option.some.inj hbytes]
  | none =>
    constructor
    · intro hv
      cases hv
    · intro hv
      have hbytes := literalBytes?_eq_some_iff.mpr hv
      rw [h] at hbytes
      cases hbytes

theorem parse_eq_error {cs : List Char} (h : ∀ v, ¬ PushLiteral cs v) :
    parse cs = .error (.invalidOperand (String.ofList cs)) := by
  cases hparse : parse cs with
  | ok v => exact absurd (parse_eq_ok_iff.mp hparse) (h v)
  | error fault =>
    rw [parse] at hparse
    split at hparse
    · cases hparse
    · exact hparse.symm

/-- Every operand has a literal: the digits of its bytes behind `0x`. -/
theorem pushLiteral_hexDigits (v : Operand) :
    PushLiteral ('0' :: 'x' :: Bytes.hexDigits v.bytes) v := by
  have heven : ¬ (Bytes.hexDigits v.bytes).length % 2 = 1 := by
    rw [Bytes.length_hexDigits]
    omega
  refine literalBytes?_eq_some_iff.mp ?_
  show hexBytes? (Bytes.hexDigits v.bytes) = some v.bytes
  rw [hexBytes?, if_neg heven, Bytes.readHex?_hexDigits]

end Operand

/-! ### Indices -/

theorem indexDigits_of_digits {sign cs : List Char} (hsign : sign = [] ∨ sign = ['+'])
    (h : ∀ c ∈ cs, isDigit c) : indexDigits (sign ++ cs) = cs := by
  rcases hsign with rfl | rfl
  · rw [List.nil_append]
    unfold indexDigits
    split
    · exact absurd (h '+' (by simp)) (by decide)
    · rfl
  · rfl

theorem exists_sign (cs : List Char) :
    ∃ sign, (sign = [] ∨ sign = ['+']) ∧ cs = sign ++ indexDigits cs := by
  unfold indexDigits
  split
  · exact ⟨['+'], Or.inr rfl, rfl⟩
  · exact ⟨[], Or.inl rfl, rfl⟩

theorem readIndex_eq_ok_iff {cs : List Char} {n : UInt8} :
    readIndex cs = .ok n ↔ IndexLiteral cs n := by
  constructor
  · intro h
    rw [readIndex] at h
    split at h
    · next m hm =>
      obtain ⟨hne, hall, hvalue⟩ := readDecimal?_eq_some_iff.mp hm
      split at h
      · next hle =>
        obtain rfl := Except.ok.inj h
        have hn : (UInt8.ofNat m).toNat = m := by
          rw [UInt8.toNat_ofNat']
          omega
        obtain ⟨sign, hsign, heq⟩ := exists_sign cs
        rw [heq]
        exact .mk hsign hne hall (by rw [hvalue, hn])
      · cases h
    · cases h
  · intro h
    obtain @⟨sign, digits, n, hsign, hne, hall, hvalue⟩ := h
    have hread : readDecimal? digits = some n.toNat :=
      readDecimal?_eq_some_iff.mpr ⟨hne, hall, hvalue⟩
    have hle : n.toNat ≤ 255 := Nat.le_of_lt_succ n.toNat_lt
    rw [readIndex, indexDigits_of_digits hsign hall, hread]
    simp [hle]

theorem readIndex_eq_error {cs : List Char} (h : ∀ n, ¬ IndexLiteral cs n) :
    readIndex cs = .error (.unreadableIndex (String.ofList cs)) := by
  cases hread : readIndex cs with
  | ok n => exact absurd (readIndex_eq_ok_iff.mp hread) (h n)
  | error fault =>
    rw [readIndex] at hread
    split at hread
    · split at hread
      · cases hread
      · exact hread.symm
    · exact hread.symm

theorem isDigit_of_mem_toDigits {n : Nat} {c : Char} (h : c ∈ Nat.toDigits 10 n) : isDigit c := by
  have hdigit := Nat.isDigit_of_mem_toDigits (by decide) (by decide) h
  simpa [Char.isDigit, isDigit, Char.le_def] using hdigit

/-- Every index has a literal: its decimal digits. -/
theorem indexLiteral_toDigits (n : UInt8) : IndexLiteral (Nat.toDigits 10 n.toNat) n := by
  have hdigit : ∀ c ∈ Nat.toDigits 10 n.toNat, isDigit c := fun _ => isDigit_of_mem_toDigits
  have hvalue : numeral 10 ((Nat.toDigits 10 n.toNat).map digitValue) = n.toNat := by
    have hback := Nat.ofDigitChars_ten_toDigits (n := n.toNat)
    rw [Nat.ofDigitChars_eq_foldl] at hback
    rw [numeral, List.foldl_map]
    simpa only [digitValue, Nat.mul_comm] using hback
  exact @IndexLiteral.mk [] _ n (Or.inl rfl) Nat.toDigits_ne_nil hdigit hvalue

end BytecodeAssembler
