import BytecodeAssembler.Proofs.Numbers

/-!
# Decimal numerals in machine words

A decimal numeral is read into bytes from the left: with each digit the number read so far is
multiplied by ten and the digit is added, from the last byte to the first. In each column a byte
times ten makes a sum with what is carried to it; one byte of the sum stays, and the rest is carried
on.

* `wordSum`, `timesTenPlusWords`, `appendDecimalWords` — a sum, a pass over the bytes, and a digit in
  words, where a sum has sixteen bits and all that stays has eight;
* `ReadsDigit n before digit after` — all that one digit does, column by column.

What is carried stays below ten, so a sum is at most `255 * 10 + 9`: it fits in its word, and what
is carried out of the last column fits in a byte (`toNat_wordSum_carried`). Hence words are as good
as numbers (`appendDecimalWords_eq`), and a digit takes the shortest bytes of one number to those of
the next (`readsDigit`).
-/

namespace BytecodeAssembler

open Text

namespace Text

theorem numeral_zeros_append (base k : Nat) (digits : List Nat) :
    numeral base (List.replicate k 0 ++ digits) = numeral base digits := by
  induction k with
  | zero => rfl
  | succ k ih =>
    rw [List.replicate_succ, List.cons_append, numeral_cons, ih, Nat.zero_mul, Nat.zero_add]

end Text

namespace Bytes

theorem shortest_injective : Function.Injective shortest :=
  Function.LeftInverse.injective valueOf_shortest

/-! ### Words of sixteen bits -/

/-- A byte times ten and what is carried to it. -/
def wordSum (b : UInt8) (carry : UInt16) : UInt16 :=
  b.toUInt16 * 10 + carry

/-- One column: the low byte of the sum stays, in front of the bytes that are done, and the high
byte is carried on. -/
def wordColumn (b : UInt8) : UInt16 × List UInt8 → UInt16 × List UInt8
  | (carry, low) => (wordSum b carry >>> 8, (wordSum b carry).toUInt8 :: low)

/-- Ten times the number in `bytes` plus a digit, in words: what is carried out in front, and the
bytes that stay. -/
def timesTenPlusWords (digit : UInt8) (bytes : List UInt8) : UInt16 × List UInt8 :=
  bytes.foldr wordColumn (digit.toUInt16, [])

/-- A big-endian number with one more decimal digit at its end, in words. -/
def appendDecimalWords (bytes : List UInt8) (digit : UInt8) : List UInt8 :=
  let (carry, low) := timesTenPlusWords digit bytes
  if 0 < carry then carry.toUInt8 :: low else low

theorem sum_le_of_carry_le (b : UInt8) {carry : Nat} (h : carry ≤ 9) :
    b.toNat * 10 + carry ≤ 2559 := by
  have hb : b.toNat < 256 := b.toNat_lt
  omega

/-- A sum fits in its word while what is carried is below ten. -/
theorem toNat_wordSum (b : UInt8) {carry : UInt16} (h : carry.toNat ≤ 9) :
    (wordSum b carry).toNat = b.toNat * 10 + carry.toNat := by
  have hle := sum_le_of_carry_le b h
  have hten : (10 : UInt16).toNat = 10 := rfl
  rw [wordSum, UInt16.toNat_add, UInt16.toNat_mul, UInt8.toNat_toUInt16, hten]
  omega

section Digit

variable {digit : UInt8} (h : digit.toNat ≤ 9) (bytes : List UInt8)
include h

/-- Up to any column, words and numbers agree on what is carried and on the bytes that stay. -/
theorem timesTenPlusWords_eq :
    (timesTenPlusWords digit bytes).1.toNat = (timesTenPlus digit.toNat bytes).1 ∧
      (timesTenPlusWords digit bytes).2 = (timesTenPlus digit.toNat bytes).2 := by
  induction bytes with
  | nil => exact ⟨UInt8.toNat_toUInt16 digit, rfl⟩
  | cons b bytes ih =>
    obtain ⟨hup, -, -⟩ := timesTenPlus_spec h bytes
    have hcons : timesTenPlusWords digit (b :: bytes) =
        wordColumn b (timesTenPlusWords digit bytes) := rfl
    rw [hcons, timesTenPlus]
    rcases hwords : timesTenPlusWords digit bytes with ⟨carry, low⟩
    rcases hnumbers : timesTenPlus digit.toNat bytes with ⟨up, low'⟩
    rw [hwords, hnumbers] at ih
    rw [hnumbers] at hup
    obtain ⟨rfl, rfl⟩ := ih
    have hsum := toNat_wordSum b hup
    constructor
    · show (wordSum b carry >>> 8).toNat = _
      rw [UInt16.toNat_shiftRight, hsum]
      exact Nat.shiftRight_eq_div_pow _ 8
    · have hbyte : (wordSum b carry).toUInt8 = UInt8.ofNat (b.toNat * 10 + carry.toNat) := by
        apply UInt8.toNat_inj.mp
        rw [UInt16.toNat_toUInt8, hsum, UInt8.toNat_ofNat']
      exact congrArg (· :: low) hbyte

theorem toNat_carried :
    (timesTenPlusWords digit bytes).1.toNat = (timesTenPlus digit.toNat bytes).1 ∧
      (timesTenPlus digit.toNat bytes).1 ≤ 9 :=
  ⟨(timesTenPlusWords_eq h bytes).1, (timesTenPlus_spec h bytes).1⟩

theorem toNat_wordSum_carried (b : UInt8) :
    (wordSum b (timesTenPlusWords digit bytes).1).toNat =
        b.toNat * 10 + (timesTenPlus digit.toNat bytes).1 ∧
      b.toNat * 10 + (timesTenPlus digit.toNat bytes).1 ≤ 2559 := by
  obtain ⟨hcarry, hle⟩ := toNat_carried h bytes
  refine ⟨?_, sum_le_of_carry_le b hle⟩
  rw [toNat_wordSum b (hcarry ▸ hle), hcarry]

/-- **Words lose nothing.** -/
theorem appendDecimalWords_eq :
    appendDecimalWords bytes digit = appendDecimal bytes digit.toNat := by
  obtain ⟨hcarry, hlow⟩ := timesTenPlusWords_eq h bytes
  rw [appendDecimalWords, appendDecimal]
  rcases hwords : timesTenPlusWords digit bytes with ⟨carry, low⟩
  rcases hnumbers : timesTenPlus digit.toNat bytes with ⟨up, low'⟩
  rw [hwords, hnumbers] at hcarry hlow
  obtain rfl : carry.toNat = up := hcarry
  obtain rfl : low = low' := hlow
  have hzero : 0 < carry ↔ ¬ carry.toNat = 0 := by
    rw [UInt16.lt_iff_toNat_lt, UInt16.toNat_zero]
    omega
  have hbyte : carry.toUInt8 = UInt8.ofNat carry.toNat := rfl
  simp only [hzero, hbyte, ite_not]

end Digit

/-! ### One digit -/

/-- What the digit `digit` does to the bytes `before` of the number `n` read so far. -/
structure ReadsDigit (n : Nat) (before : List UInt8) (digit : UInt8) (after : List UInt8) :
    Prop where
  before_minimal : Minimal n before
  after_minimal : Minimal (n * 10 + digit.toNat) after
  /-- What is carried to each column, and out of the first one. -/
  carried : ∀ low, low <:+ before →
    (timesTenPlusWords digit low).1.toNat = (timesTenPlus digit.toNat low).1 ∧
      (timesTenPlus digit.toNat low).1 ≤ 9
  /-- The sum of each column. -/
  sum : ∀ b low, b :: low <:+ before →
    (wordSum b (timesTenPlusWords digit low).1).toNat =
        b.toNat * 10 + (timesTenPlus digit.toNat low).1 ∧
      b.toNat * 10 + (timesTenPlus digit.toNat low).1 ≤ 2559
  /-- At most one byte is new, in front of a byte for each one before. -/
  inserted : ∃ new low, after = new ++ low ∧ new.length ≤ 1 ∧ low.length = before.length
  words : after = appendDecimalWords before digit
  numbers : after = appendDecimal before digit.toNat

theorem exists_inserted (bytes : List UInt8) {d : Nat} (hd : d ≤ 9) :
    ∃ new low, appendDecimal bytes d = new ++ low ∧ new.length ≤ 1 ∧
      low.length = bytes.length := by
  obtain ⟨-, hlen, -⟩ := timesTenPlus_spec hd bytes
  rw [appendDecimal]
  rcases hnumbers : timesTenPlus d bytes with ⟨up, low⟩
  rw [hnumbers] at hlen
  by_cases hup : up = 0
  · exact ⟨[], low, if_pos hup, Nat.zero_le 1, hlen⟩
  · exact ⟨[UInt8.ofNat up], low, if_neg hup, le_rfl, hlen⟩

/-- **The step of a digit**, from the shortest bytes of one number to those of the next. -/
theorem readsDigit {digit : UInt8} (h : digit.toNat ≤ 9) (n : Nat) :
    ReadsDigit n (shortest n) digit (appendDecimal (shortest n) digit.toNat) where
  before_minimal := minimal_iff.mpr rfl
  after_minimal := minimal_iff.mpr (appendDecimal_shortest (Nat.lt_succ_of_le h) n)
  carried low _ := toNat_carried h low
  sum b low _ := toNat_wordSum_carried h low b
  inserted := exists_inserted _ h
  words := (appendDecimalWords_eq h _).symm
  numbers := rfl

/-- The value of a decimal digit as a byte. -/
def digitByte (c : Char) : UInt8 :=
  UInt8.ofNat (digitValue c)

theorem toNat_digitByte {c : Char} (h : isDigit c) : (digitByte c).toNat = digitValue c := by
  have hlt := digitValue_lt_ten h
  rw [digitByte, UInt8.toNat_ofNat']
  omega

theorem toNat_digitByte_le {c : Char} (h : isDigit c) : (digitByte c).toNat ≤ 9 := by
  rw [toNat_digitByte h]
  exact Nat.le_of_lt_succ (digitValue_lt_ten h)

/-- A numeral is read in words as it is in numbers. -/
theorem foldl_appendDecimalWords {cs : List Char} (h : ∀ c ∈ cs, isDigit c) (bytes : List UInt8) :
    (cs.map digitByte).foldl appendDecimalWords bytes =
      (cs.map digitValue).foldl appendDecimal bytes := by
  induction cs generalizing bytes with
  | nil => rfl
  | cons c cs ih =>
    have hc := h c List.mem_cons_self
    rw [List.map_cons, List.map_cons, List.foldl_cons, List.foldl_cons,
      appendDecimalWords_eq (toNat_digitByte_le hc), toNat_digitByte hc]
    exact ih (fun e he => h e (List.mem_cons_of_mem c he)) _

end Bytes

namespace Operand

open Bytes

/-! ### Numerals -/

theorem parse_of_digits {cs : List Char} (hne : cs ≠ []) (h : ∀ c ∈ cs, isDigit c) :
    parse cs = .ok ⟨ofDecimal (cs.map digitValue)⟩ := by
  rw [parse, literalBytes?_of_digits h, decimalDigits?_eq_some_iff.mpr ⟨hne, h, rfl⟩]
  rfl

/-- Two numerals are read as the same bytes exactly if they are numerals of one number. -/
theorem ofDecimal_eq_iff {ds es : List Nat} (hds : ∀ d ∈ ds, d < 10) (hes : ∀ d ∈ es, d < 10) :
    ofDecimal ds = ofDecimal es ↔ numeral 10 ds = numeral 10 es := by
  rw [ofDecimal_eq_shortest hds, ofDecimal_eq_shortest hes, shortest_injective.eq_iff]

theorem parse_zeros_append {cs : List Char} (hne : cs ≠ []) (h : ∀ c ∈ cs, isDigit c) (k : Nat) :
    parse (List.replicate k '0' ++ cs) = parse cs := by
  have hzeros : ∀ c ∈ List.replicate k '0' ++ cs, isDigit c := by
    intro c hc
    rcases List.mem_append.mp hc with hc | hc
    · obtain rfl := List.eq_of_mem_replicate hc
      decide
    · exact h c hc
  have hvalue : numeral 10 ((List.replicate k '0' ++ cs).map digitValue) =
      numeral 10 (cs.map digitValue) := by
    rw [List.map_append, List.map_replicate]
    exact numeral_zeros_append 10 k _
  rw [parse_of_digits (List.append_ne_nil_of_right_ne_nil _ hne) hzeros, parse_of_digits hne h,
    (ofDecimal_eq_iff (lt_ten_of_digits hzeros) (lt_ten_of_digits h)).mpr hvalue]

/-- **Decimal numerals are read into the shortest bytes, and in words that do not overflow.** A
numeral is read as words have it. At each of its digits, the bytes before and behind the digit are
the shortest ones of the numbers read so far; nothing above 9 is carried, no sum is above 2559, and
at most one byte is new. So numerals are read as one operand exactly if they are numerals of one
number, and zeros in front make no difference. -/
theorem decimal_reading_is_canonical {cs : List Char} (hne : cs ≠ []) (hcs : ∀ c ∈ cs, isDigit c) :
    parse cs = .ok ⟨(cs.map digitByte).foldl appendDecimalWords [0]⟩ ∧
    (∀ read c rest, cs = read ++ c :: rest → ∃ after,
      ReadsDigit (numeral 10 (read.map digitValue)) (ofDecimal (read.map digitValue))
        (digitByte c) after ∧
      parse cs = .ok ⟨(rest.map digitValue).foldl appendDecimal after⟩) ∧
    (∀ ds : List Char, ds ≠ [] → (∀ c ∈ ds, isDigit c) →
      ∃ v w, parse cs = .ok v ∧ parse ds = .ok w ∧
        (v = w ↔ numeral 10 (cs.map digitValue) = numeral 10 (ds.map digitValue))) ∧
    ∀ k, parse (List.replicate k '0' ++ cs) = parse cs := by
  have hparse := parse_of_digits hne hcs
  refine ⟨?_, ?_, ?_, parse_zeros_append hne hcs⟩
  · rw [foldl_appendDecimalWords hcs]
    exact hparse
  · intro read c rest hsplit
    have hread : ∀ d ∈ read.map digitValue, d < 10 :=
      lt_ten_of_digits fun e he => hcs e (by simp [hsplit, he])
    have hc : isDigit c := hcs c (by simp [hsplit])
    have hstep := readsDigit (toNat_digitByte_le hc) (numeral 10 (read.map digitValue))
    rw [← ofDecimal_eq_shortest hread] at hstep
    refine ⟨_, hstep, ?_⟩
    -- the digits behind this one are read on from the bytes it leaves
    rw [hparse, hsplit, toNat_digitByte hc, List.map_append, ofDecimal, List.foldl_append]
    rfl
  · intro ds hne' hds
    refine ⟨_, _, hparse, parse_of_digits hne' hds, ?_⟩
    rw [Operand.mk.injEq]
    exact ofDecimal_eq_iff (lt_ten_of_digits hcs) (lt_ten_of_digits hds)

/-- The last digit of `0256` needs a second byte. -/
theorem decimal_reading_is_canonical_carried :
    ReadsDigit 25 [25] 6 [1, 0] ∧ parse ['0', '2', '5', '6'] = .ok ⟨[1, 0]⟩ ∧
      parse ['0', '2', '5', '6'] ≠ parse ['2', '5', '5'] := by
  have hcs : ∀ c ∈ ['2', '5', '6'], isDigit c := List.all_eq_true.mp rfl
  obtain ⟨hwords, hdigits, hequal, hzeros⟩ := decimal_reading_is_canonical (by decide) hcs
  obtain ⟨after, hstep, hafter⟩ := hdigits ['2', '5'] '6' [] rfl
  obtain rfl : [1, 0] = after := congrArg Operand.bytes (Except.ok.inj (hwords.symm.trans hafter))
  have hzero : parse ['0', '2', '5', '6'] = parse ['2', '5', '6'] := hzeros 1
  refine ⟨hstep, hzero.trans hafter, ?_⟩
  obtain ⟨v, w, hv, hw, hvw⟩ := hequal ['2', '5', '5'] (by decide) (List.all_eq_true.mp rfl)
  rw [hzero, hv, hw]
  intro hsame
  exact absurd (hvw.mp (Except.ok.inj hsame)) (by decide)

end Operand

end BytecodeAssembler
