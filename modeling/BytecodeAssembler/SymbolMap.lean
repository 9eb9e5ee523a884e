import BytecodeAssembler.Deployment
import BytecodeAssembler.SymbolMap.Key

/-!
# The symbol map

A YAML document that tells where things are: the lengths of loader and runtime, and the offset of
every label in the runtime, in the order in which the labels were placed.
-/

namespace BytecodeAssembler

/-- The lengths of loader and runtime, and the labels with their offsets. -/
structure SymbolMap where
  loaderSize : Nat
  runtimeSize : Nat
  labels : List (String × Nat)
  deriving Repr, DecidableEq

namespace SymbolMap

/-- The longest name, in bytes, that stands on one line with its offset. -/
def maxSimpleKey : Nat := 128

/-- The lines of a label: a long name is marked as a key and its offset follows on the next line. -/
def entryText (name : String) (offset : Nat) : String :=
  if name.utf8ByteSize ≤ maxSimpleKey then "  " ++ write name ++ ": " ++ Text.decimal offset ++ "\n"
  else "  ? " ++ write name ++ "\n  : " ++ Text.decimal offset ++ "\n"

/-- The labels of a symbol map, each on a line of its own. -/
def labelsText : List (String × Nat) → String
  | [] => "labels: \x7b\x7d\n"
  | labels => "labels:\n" ++ String.join (labels.map fun (name, offset) => entryText name offset)

/-- The text of a symbol map. -/
def text (m : SymbolMap) : String :=
  "loader_size: " ++ Text.decimal m.loaderSize ++ "\nruntime_size: " ++
    Text.decimal m.runtimeSize ++ "\n" ++ labelsText m.labels

end SymbolMap

/-- The symbol map of a session and its deployment. -/
def Session.symbolMap (s : Session) (d : Deployment) : SymbolMap :=
  ⟨d.loader.length, d.runtime.size, s.labels.defined.toList⟩

end BytecodeAssembler
