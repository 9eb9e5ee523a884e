import BytecodeAssembler.Text.Pieces

/-!
# Paths

A path is taken apart at its slashes. Empty names count for nothing, except that a slash behind the
last name asks for a directory.
-/

namespace BytecodeAssembler

/-- A place in the tree: the names that lead to it from the root. -/
abbrev Place := List String

/-- The longest name of a file, in bytes. -/
def maxName : Nat := 255

/-- The longest path, in bytes. -/
def maxPath : Nat := 4095

/-- A path taken apart: where it starts, the names to pass through, the last name, and whether
nothing but slashes follows that. -/
structure Route where
  absolute : Bool
  through : List String
  last : String
  slash : Bool
  deriving Repr, DecidableEq

/-- Takes a path apart. A path of slashes alone leads to the root, as `/.` does. -/
def Route.ofPath (path : String) : Route :=
  let cs := path.toList
  let names := (Text.pieces (· == '/') cs).filter (· ≠ [])
  { absolute := cs.head? = some '/'
    through := names.dropLast.map String.ofList
    last := String.ofList (names.getLast?.getD ['.'])
    slash := cs.getLast? = some '/' }

end BytecodeAssembler
