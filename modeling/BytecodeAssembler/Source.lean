import BytecodeAssembler.Statement
import BytecodeAssembler.Text.Line

/-!
# Source files and their lines

* `Source.ofText` — a file's lines;
* `Source.lines` — the lines of a file read one by one, each a statement or a fault;
* `Diagnostic` — a fault with the line it is about, as it is shown.
-/

namespace BytecodeAssembler

open Text

/-- A source file: its path and its lines. -/
structure Source where
  path : String
  texts : List String
  deriving Repr, DecidableEq

/-- The source in a file. -/
def Source.ofText (path text : String) : Source :=
  ⟨path, (Text.lines text.toList).map String.ofList⟩

/-- Where a line stands: its file, its number from one on, and its text. -/
structure Position where
  path : String
  number : Nat
  text : String
  deriving Repr, DecidableEq

/-- A line that was read. -/
structure SourceLine where
  position : Position
  statement : Statement
  comment : Option String
  deriving Repr, DecidableEq

/-- A fault and the line it is about. -/
structure Diagnostic where
  fault : Fault
  position : Position
  deriving Repr, DecidableEq

namespace Diagnostic

/-- The line that says what is wrong. -/
def headline (message : String) : Styled :=
  .part { colour := some .red, bold := true } (.text "error") ++ .text (": " ++ message)

/-- The fault, where it is, and the line itself between two bars. -/
def shown (d : Diagnostic) : List Styled :=
  let bar : Styled := .text "      " ++ .paint .blue "|"
  let place := d.position.path ++ ":" ++ decimal d.position.number
  let number := padLeft 4 ' ' (decimal d.position.number)
  [headline d.fault.message,
    .text "     " ++ .paint .blue "-->" ++ .text " " ++ .part { underline := true } (.text place),
    bar,
    .text " " ++ .paint .blue (number ++ " |") ++ .text (" " ++ d.position.text),
    bar]

end Diagnostic

/-- Reads a line. -/
def Position.read (p : Position) : Except Diagnostic SourceLine :=
  match Statement.parse p.text with
  | .ok (statement, comment) => .ok ⟨p, statement, comment⟩
  | .error fault => .error ⟨fault, p⟩

namespace Source

/-- The lines of a file, each with its place. -/
def positions (source : Source) : List Position :=
  (source.texts.zipIdx 1).map fun (text, number) => ⟨source.path, number, text⟩

/-- The lines of files, read one by one. -/
def readAll (sources : List Source) : List (Except Diagnostic SourceLine) :=
  (sources.flatMap positions).map Position.read

/-- A file among those read before: one of the same path is replaced where it stands. -/
def insert (sources : List Source) (source : Source) : List Source :=
  if sources.any fun s => s.path == source.path then
    sources.map fun s => if s.path = source.path then source else s
  else sources ++ [source]

end Source

/-- The faults among lines. -/
def faultsOf (lines : List (Except Diagnostic SourceLine)) : List Diagnostic :=
  lines.filterMap fun
    | .error d => some d
    | .ok _ => none

/-- The statements among lines. -/
def statementsOf (lines : List (Except Diagnostic SourceLine)) : List SourceLine :=
  lines.filterMap fun
    | .error _ => none
    | .ok line => some line

end BytecodeAssembler
