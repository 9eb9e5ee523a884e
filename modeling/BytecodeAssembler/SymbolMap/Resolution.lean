import BytecodeAssembler.Text.Numeral

/-!
# What a plain scalar is read as

A reader of YAML takes a scalar without quotes for a null, a truth value or a number where it looks
like one. A name for which `isResolved` holds would come back as something other than the name.

* `isNull` and `isTruth` — the words, in their three spellings;
* `isInteger` — integers of up to 128 bits: decimal ones without leading zeros, and those behind
  `0x`, `0o` and `0b`;
* `isZeroLed` — digits behind a superfluous zero, which readers disagree on;
* `isDecimalFraction` and `isSpecial` — finite floating-point numbers, infinities and NaN.
-/

namespace BytecodeAssembler.SymbolMap

open Text

/-! ### Words -/

/-- A spelling of null. -/
def isNull (cs : List Char) : Bool :=
  ["", "null", "Null", "NULL", "~"].any fun word => word.toList == cs

/-- A spelling of a truth value. -/
def isTruth (cs : List Char) : Bool :=
  ["true", "True", "TRUE", "false", "False", "FALSE"].any fun word => word.toList == cs

/-! ### Integers -/

/-- The value of a digit of either case in a radix up to 16. -/
def radixDigit? (radix : Nat) (c : Char) : Option Nat :=
  let value? :=
    if isDigit c then some (digitValue c)
    else if 'a' ≤ c ∧ c ≤ 'f' then some (c.toNat - 87)
    else if 'A' ≤ c ∧ c ≤ 'F' then some (c.toNat - 55)
    else none
  value?.filter (· < radix)

/-- The number that digits stand for in a radix, if they are one or more digits of it. -/
def readRadix? (radix : Nat) (cs : List Char) : Option Nat :=
  if cs = [] then none
  else cs.foldl (fun n? c => do
    let n ← n?
    let d ← radixDigit? radix c
    pure (n * radix + d)) (some 0)

/-- Text without one sign in front of it. -/
def dropSign : List Char → List Char
  | '+' :: cs => cs
  | '-' :: cs => cs
  | cs => cs

/-- Two or more digits, the first of them zero, with or without a sign. -/
def isZeroLed (cs : List Char) : Bool :=
  match dropSign cs with
  | '0' :: d :: ds => (d :: ds).all isDigit
  | _ => false

/-- The magnitude of an integer without a sign: decimal, or in the radix that its mark names. -/
def magnitude? : List Char → Option Nat
  | '0' :: 'x' :: cs => readRadix? 16 cs
  | '0' :: 'o' :: cs => readRadix? 8 cs
  | '0' :: 'b' :: cs => readRadix? 2 cs
  | cs => readRadix? 10 cs

/-- An integer from -2^127 to 2^128 - 1. -/
def isInteger (cs : List Char) : Bool :=
  if isZeroLed cs then false
  else match cs with
    | '-' :: cs => (magnitude? cs).any (· ≤ Nat.pow 2 127)
    | '+' :: cs => (magnitude? cs).any (· < Nat.pow 2 128)
    | cs => (magnitude? cs).any (· < Nat.pow 2 128)

/-! ### Floating-point numbers -/

/-- The first number that is too large for a floating-point number of 64 bits: half a unit in the
last place above the largest one. -/
def overflowBound : Nat :=
  Nat.pow 2 1024 - Nat.pow 2 970

/-- Whether `mantissa * 10 ^ exponent` rounds to a finite floating-point number of 64 bits. A
mantissa of `width` digits is less than `10 ^ width`. -/
def isFinite (mantissa width : Nat) (exponent : Int) : Bool :=
  if mantissa = 0 then true
  else if 400 ≤ exponent then false
  else if exponent + width ≤ 308 then true
  else mantissa * Nat.pow 10 exponent.toNat < overflowBound * Nat.pow 10 (-exponent).toNat

/-- The exponent behind an `e`: decimal digits with or without a sign. -/
def readExponent? : List Char → Option Int
  | '-' :: cs => (readDecimal? cs).map fun n => -(n : Int)
  | '+' :: cs => (readDecimal? cs).map fun n => (n : Int)
  | cs => (readDecimal? cs).map fun n => (n : Int)

/-- The exponent of a number whose digits end where `cs` starts. -/
def exponent? : List Char → Option Int
  | [] => some 0
  | c :: cs => if c = 'e' ∨ c = 'E' then readExponent? cs else none

/-- Digits with at most one point among, before or behind them, and then perhaps an exponent: a
number that rounds to a finite floating-point number of 64 bits. -/
def isDecimalFraction (cs : List Char) : Bool :=
  let unsigned := dropSign cs
  let whole := unsigned.takeWhile isDigit
  let (fraction, rest) :=
    match unsigned.dropWhile isDigit with
    | '.' :: tail => (tail.takeWhile isDigit, tail.dropWhile isDigit)
    | tail => ([], tail)
  let digits := whole ++ fraction
  match readDecimal? digits, exponent? rest with
  | some mantissa, some exponent =>
    isFinite mantissa digits.length (exponent - fraction.length)
  | _, _ => false

/-- A spelling of an infinity or of NaN. -/
def isSpecial (cs : List Char) : Bool :=
  [".inf", ".Inf", ".INF"].any (fun word => word.toList == dropSign cs) ||
    [".nan", ".NaN", ".NAN"].any (fun word => word.toList == cs)

/-- Whether a plain scalar would be read as something other than its text. -/
def isResolved (cs : List Char) : Bool :=
  isNull cs || isTruth cs || isInteger cs || isZeroLed cs || isDecimalFraction cs || isSpecial cs

end BytecodeAssembler.SymbolMap
