import BytecodeAssembler.Text.Numeral

/-!
# Why a line or a step is refused

A `Fault` is a cause; `message` is its wording.
-/

namespace BytecodeAssembler

/-- The cause for which text is not read, a step is not taken or code is not finished. -/
inductive Fault
  /-- A push operand that is no numeral, or does not fit between 1 and 32 bytes. -/
  | invalidOperand (operand : String)
  /-- A `dup` index above 15. -/
  | dupOutOfRange (index : Nat)
  /-- A `swap` index outside 1 to 16. -/
  | swapOutOfRange (index : Nat)
  /-- A label that was placed before. -/
  | duplicateLabel (name : String)
  /-- Labels that are referenced and never placed. -/
  | unresolvedLabels (names : List String)
  /-- A label past the last offset that a jump target can hold. -/
  | offsetOverflow (name : String) (offset : Nat)
  /-- A loader whose length had not settled after so many refinements. -/
  | loaderDiverged (refinements : Nat)
  /-- A word that names no operation. -/
  | unknownOperation (word : String)
  /-- An operation without the argument it needs. -/
  | missingArgument
  /-- The first argument that an operation does not take. -/
  | tooManyArguments (argument : String)
  /-- An index that is no number from 0 to 255. -/
  | unreadableIndex (argument : String)
  /-- A line that is no statement. -/
  | malformedLine
  deriving Repr, DecidableEq

namespace Fault

/-- The wording of an index outside its range. -/
def rangeMessage (operation : String) (index low high : Nat) : String :=
  operation ++ " index " ++ Text.decimal index ++ " out of range " ++ Text.decimal low ++ "..=" ++
    Text.decimal high

/-- The wording of a fault. -/
def message : Fault → String
  | invalidOperand operand =>
    "Invalid push operand: `" ++ operand ++ "` must encode to 1..=32 bytes"
  | dupOutOfRange index => rangeMessage "dup" index 0 15
  | swapOutOfRange index => rangeMessage "swap" index 1 16
  | duplicateLabel name => "Re-defined label: `" ++ name ++ "`"
  | unresolvedLabels names => "Undefined labels: " ++ String.intercalate ", " names
  | offsetOverflow name offset =>
    "Label `" ++ name ++ "` at offset 0x" ++ Text.upperHex offset ++
      " does not fit in a 3-byte jump target"
  | loaderDiverged refinements =>
    "Loader length did not settle after " ++ Text.decimal refinements ++ " refinements"
  | unknownOperation word => "Unknown operation: `" ++ word ++ "`"
  | missingArgument => "More argument required"
  | tooManyArguments argument => "Unexpected argument: `" ++ argument ++ "`"
  | unreadableIndex argument => "Cannot parse `" ++ argument ++ "` as index"
  | malformedLine => "Syntax Error: Cannot parse"

end Fault

end BytecodeAssembler
