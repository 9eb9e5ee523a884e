/-!
# Byte strings as numbers and as hexadecimal text

* `valueOf` reads bytes as a big-endian number; `bigEndian width` writes a number in a fixed number
  of bytes and `shortest` in as few as it needs;
* `appendDecimal` extends a big-endian number by one decimal digit without leaving the bytes, which
  is how decimal numerals of any length are read (`ofDecimal`);
* `hexOf` writes two lower-case digits for each byte, and `readHex?` reads pairs of digits of either
  case.
-/

namespace BytecodeAssembler

namespace Bytes

/-! ### Numbers -/

/-- The number that bytes stand for, most significant byte first. -/
def valueOf (bytes : List UInt8) : Nat :=
  bytes.foldl (fun n b => n * 256 + b.toNat) 0

/-- The last `width` base-256 digits of a number, most significant first. -/
def bigEndian : Nat → Nat → List UInt8
  | 0, _ => []
  | width + 1, n => bigEndian width (n / 256) ++ [UInt8.ofNat n]

/-- A number in as few bytes as it needs, and zero in one. -/
def shortest (n : Nat) : List UInt8 :=
  bigEndian (n.log2 / 8 + 1) n

/-- Bytes without their leading zero bytes. -/
def trimZeros (bytes : List UInt8) : List UInt8 :=
  bytes.dropWhile (· == 0)

@[simp] theorem length_bigEndian (width n : Nat) : (bigEndian width n).length = width := by
  induction width generalizing n with
  | zero => rfl
  | succ width ih => simp [bigEndian, ih]

theorem valueOf_concat (bytes : List UInt8) (b : UInt8) :
    valueOf (bytes ++ [b]) = valueOf bytes * 256 + b.toNat := by
  simp [valueOf]

/-! ### Decimal numerals -/

/-- Ten times the number in `bytes` plus `carry`, kept to the same width; what does not fit is
carried out in front. -/
def timesTenPlus (carry : Nat) : List UInt8 → Nat × List UInt8
  | [] => (carry, [])
  | b :: bs =>
    let (up, low) := timesTenPlus carry bs
    let sum := b.toNat * 10 + up
    (sum / 256, UInt8.ofNat sum :: low)

/-- A big-endian number with one more decimal digit at its end. -/
def appendDecimal (bytes : List UInt8) (digit : Nat) : List UInt8 :=
  let (up, low) := timesTenPlus digit bytes
  if up = 0 then low else UInt8.ofNat up :: low

/-- The big-endian bytes of a decimal numeral, given by its digits from the left. -/
def ofDecimal (digits : List Nat) : List UInt8 :=
  digits.foldl appendDecimal [0]

/-! ### Hexadecimal text -/

/-- The lower-case digit of a number below sixteen. -/
def hexDigit (n : Nat) : Char :=
  if n < 10 then Char.ofNat (48 + n) else Char.ofNat (87 + n)

/-- The value of a hexadecimal digit of either case. -/
def hexValue? (c : Char) : Option Nat :=
  if '0' ≤ c ∧ c ≤ '9' then some (c.toNat - 48)
  else if 'a' ≤ c ∧ c ≤ 'f' then some (c.toNat - 87)
  else if 'A' ≤ c ∧ c ≤ 'F' then some (c.toNat - 55)
  else none

/-- The two digits of a byte, high half first. -/
def hexPair (b : UInt8) : List Char :=
  [hexDigit (b.toNat / 16), hexDigit (b.toNat % 16)]

/-- The digits of a byte string, two for each byte. -/
def hexDigits (bytes : List UInt8) : List Char :=
  bytes.flatMap hexPair

/-- The hexadecimal text of a byte string. -/
def hexOf (bytes : List UInt8) : String :=
  String.ofList (hexDigits bytes)

/-- The bytes that pairs of hexadecimal digits stand for, if there are only such pairs. -/
def readHex? : List Char → Option (List UInt8)
  | [] => some []
  | [_] => none
  | high :: low :: rest => do
    let h ← hexValue? high
    let l ← hexValue? low
    let bytes ← readHex? rest
    pure (UInt8.ofNat (h * 16 + l) :: bytes)

/-- Two digits of a byte in upper case, as columns of a listing show it. -/
def hexUpper (b : UInt8) : String :=
  String.ofList ((hexPair b).map Char.toUpper)

end Bytes

end BytecodeAssembler
