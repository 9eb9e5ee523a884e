import BytecodeAssembler.Deployment
import BytecodeAssembler.Source

/-!
# The listing

The listing shows what every line of source became. A `Row` is a line and the span of code that it
appended. `Listing.lines` heads the rows of each file by its path, and shows in front of each row
its offset and its first bytes. The loader, if it is part of the payload, is listed instruction by
instruction.
-/

namespace BytecodeAssembler

open Text

/-- A line and the span of code that it appended. -/
structure Row where
  line : SourceLine
  start : Nat
  stop : Nat
  deriving Repr, DecidableEq

namespace Listing

/-- How many bytes of a span are shown. -/
def shownBytes : Nat := 5

/-- The first bytes of a span, and two dots if there are more. -/
def bytesColumn (bytes : List UInt8) : String :=
  String.intercalate " " ((bytes.take shownBytes).map Bytes.hexUpper) ++
    (if shownBytes < bytes.length then ".." else "")

/-- An offset in at least four upper-case hexadecimal digits. -/
def offsetColumn (offset : Nat) : String :=
  padLeft 4 '0' (upperHex offset)

/-- Offset and first bytes of a span. -/
def spanColumns (offset : Nat) (bytes : List UInt8) : String :=
  "[" ++ offsetColumn offset ++ "] " ++ padRight 16 (bytesColumn bytes)

/-- A number of dashes. -/
def dashes (n : Nat) : String :=
  String.ofList (List.replicate n '-')

/-- The heading above the rows of a file, filled up by the length of the path in bytes. -/
def heading (title : String) : String :=
  dashes 23 ++ "+------[" ++ title ++ "]" ++ dashes (45 - title.utf8ByteSize)

/-- The line below the last row. -/
def rule : String :=
  dashes 23 ++ "+" ++ dashes 53

/-- An instruction of the loader. -/
def loaderLine (entry : Nat × Instr) : Styled :=
  .text (spanColumns entry.1 entry.2.toBytes ++ " |         ") ++ entry.2.listed

/-- The loader under its heading. -/
def loaderLines (loader : List UInt8) : List Styled :=
  .text (dashes 23 ++ "+------[loader]" ++ dashes 41) :: (Instr.sweep loader).map loaderLine

/-- The bytes of a span of code. -/
def Row.bytes (code : Array UInt8) (row : Row) : List UInt8 :=
  (code.extract row.start row.stop).toList

/-- The columns in front of a row: offset and first bytes, or spaces if nothing was appended. -/
def frontColumns (code : Array UInt8) (row : Row) : String :=
  if row.start < row.stop then spanColumns row.start (Row.bytes code row) ++ " "
  else String.ofList (List.replicate 23 ' ')

/-- A row of the listing. -/
def rowLine (code : Array UInt8) (row : Row) : Styled :=
  .text (frontColumns code row ++ "| " ++ padLeft 4 ' ' (decimal row.line.position.number) ++ ": ")
    ++ row.line.statement.listed row.line.comment

/-- Rows, with a heading above each that is in another file than the one before it. -/
def rowLines (code : Array UInt8) (path : String) : List Row → List Styled
  | [] => []
  | row :: rows =>
    let next := row.line.position.path
    (if next = path then [] else [.text (heading next)]) ++
      rowLine code row :: rowLines code next rows

/-- The listing of a runtime, with the loader in front of it if there is one. -/
def lines (rows : List Row) (code : Array UInt8) (loader : Option (List UInt8)) : List Styled :=
  (match loader with
    | some loader => loaderLines loader
    | none => []) ++ rowLines code "" rows ++ [.text rule]

end Listing

end BytecodeAssembler
