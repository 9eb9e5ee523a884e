import BytecodeAssembler.Text.Pieces

/-!
# Lines of a text

A line ends at a line feed, and a carriage return right in front of the line feed belongs to the
line's end. Text behind the last line feed is a line too, as it stands, if there is any.
-/

namespace BytecodeAssembler.Text

/-- A line without a carriage return at its end. -/
def dropReturn (line : List Char) : List Char :=
  if line.getLast? = some '\r' then line.dropLast else line

/-- The lines of a text, given by what stands between its line feeds. -/
def linesOfPieces : List (List Char) → List (List Char)
  | [] => []
  | [last] => if last = [] then [] else [last]
  | p :: ps => dropReturn p :: linesOfPieces ps

/-- The lines of a text. -/
def lines (cs : List Char) : List (List Char) :=
  linesOfPieces (pieces (· == '\n') cs)

end BytecodeAssembler.Text
