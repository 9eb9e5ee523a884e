/-!
# Text taken apart

* `pieces` — what stands between separators, one piece more than there are separators;
* `cut` — what stands before the first of a separator, and what stands after it.
-/

namespace BytecodeAssembler.Text

/-- One more character in front of pieces: a separator starts a new piece. -/
def consPiece (isSeparator : Char → Bool) (c : Char) (ps : List (List Char)) : List (List Char) :=
  if isSeparator c then [] :: ps
  else match ps with
    | [] => [[c]]
    | p :: rest => (c :: p) :: rest

/-- What stands between the separators of a text. -/
def pieces (isSeparator : Char → Bool) (cs : List Char) : List (List Char) :=
  cs.foldr (consPiece isSeparator) [[]]

/-- There is always a piece, if only an empty one. -/
theorem pieces_ne_nil (isSeparator : Char → Bool) (cs : List Char) :
    pieces isSeparator cs ≠ [] := by
  cases cs with
  | nil => simp [pieces]
  | cons c cs =>
    rw [pieces, List.foldr_cons]
    unfold consPiece
    split
    · simp
    · split <;> simp

/-- What stands before the first separator, and what stands after it if there is one. -/
def cut (separator : Char) (cs : List Char) : List Char × Option (List Char) :=
  (cs.takeWhile (· ≠ separator),
    match cs.dropWhile (· ≠ separator) with
    | [] => none
    | _ :: rest => some rest)

end BytecodeAssembler.Text
