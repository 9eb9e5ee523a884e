import BytecodeAssembler.SymbolMap.Resolution
import BytecodeAssembler.Text.Blank

/-!
# Names as keys of a mapping

A name is written plainly where a reader takes it for that name, in single quotes where it would
not, and in double quotes with escapes where it holds a character that may not stand in a document.

* `style` — which of the three;
* `write` — the key as it is written.
-/

namespace BytecodeAssembler.SymbolMap

/-- How a key is written. -/
inductive KeyStyle
  | plain | single | double
  deriving Repr, DecidableEq

/-- Whether a character may stand in a document as it is. -/
def isPrintable (c : Char) : Bool :=
  let n := c.toNat
  (0x20 ≤ n && n ≤ 0x7E) ||
    (0xA0 ≤ n && n ≤ 0xFFFD && n != 0x2028 && n != 0x2029 && n != 0xFEFF) || 0x10000 ≤ n

/-- Whether a character at the start of plain text would be taken for an indicator, given whether it
stands alone there. -/
def isIndicator (c : Char) (alone : Bool) : Bool :=
  "#,[]\x7b\x7d&*!|>'\"%@`".toList.contains c || ("?:-".toList.contains c && alone)

/-- Whether a name can stand plainly in a block of a document. -/
def isPlain (cs : List Char) : Bool :=
  match cs with
  | [] => false
  | c :: rest =>
    !isIndicator c (rest.head?.all Text.isBlank) &&
      !("---".toList.isPrefixOf cs) && !("...".toList.isPrefixOf cs)

/-- How a name is written as a key. -/
def style (cs : List Char) : KeyStyle :=
  if !cs.all isPrintable then .double
  else if isResolved cs || !isPlain cs then .single
  else .plain

/-- A code point in upper-case hexadecimal digits, filled up with zeros to a width. -/
def escapeDigits (width n : Nat) : List Char :=
  let digits := (Text.upperHex n).toList
  List.replicate (width - digits.length) '0' ++ digits

/-- A character between double quotes. -/
def escape (c : Char) : List Char :=
  if c = '"' ∨ c = '\\' then ['\\', c]
  else if isPrintable c then [c]
  else match c.toNat with
    | 0x00 => ['\\', '0']
    | 0x07 => ['\\', 'a']
    | 0x08 => ['\\', 'b']
    | 0x09 => ['\\', 't']
    | 0x0A => ['\\', 'n']
    | 0x0B => ['\\', 'v']
    | 0x0C => ['\\', 'f']
    | 0x0D => ['\\', 'r']
    | 0x1B => ['\\', 'e']
    | 0x85 => ['\\', 'N']
    | 0x2028 => ['\\', 'L']
    | 0x2029 => ['\\', 'P']
    | n =>
      if n ≤ 0xFF then '\\' :: 'x' :: escapeDigits 2 n
      else if n ≤ 0xFFFF then '\\' :: 'u' :: escapeDigits 4 n
      else '\\' :: 'U' :: escapeDigits 8 n

/-- A character between single quotes, where a quote is written twice. -/
def doubleQuote (c : Char) : List Char :=
  if c = '\x27' then [c, c] else [c]

/-- A name as a key. -/
def write (name : String) : String :=
  let cs := name.toList
  match style cs with
  | .plain => name
  | .single => "'" ++ String.ofList (cs.flatMap doubleQuote) ++ "'"
  | .double => "\"" ++ String.ofList (cs.flatMap escape) ++ "\""

end BytecodeAssembler.SymbolMap
