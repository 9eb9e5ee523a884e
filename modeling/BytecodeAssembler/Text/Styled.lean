/-!
# Styled text for terminals

`Styled` is text of which parts have a look of their own. It has two renderings: `plain` is the text
alone, and `ansi` writes control sequences where the look changes.

A part inside another part is rendered on its own first: it starts from the plain look and goes back
to it.
-/

namespace BytecodeAssembler.Text

/-- A colour of text. -/
inductive Colour
  | red | green | yellow | blue
  deriving Repr, DecidableEq

/-- The look of a part: its colour, if it has one, and its weight. -/
structure Look where
  colour : Option Colour := none
  bold : Bool := false
  underline : Bool := false
  deriving Repr, DecidableEq

/-- The control sequence that selects a colour, or the default one. -/
def colourCode : Option Colour → String
  | some .red => "\x1b[31m"
  | some .green => "\x1b[32m"
  | some .yellow => "\x1b[33m"
  | some .blue => "\x1b[34m"
  | none => "\x1b[39m"

/-- The control sequences that lead from one look to another, for what differs between the two. -/
def Look.change (before after : Look) : String :=
  (if before.colour = after.colour then "" else colourCode after.colour) ++
    (if before.bold = after.bold then "" else if after.bold then "\x1b[1m" else "\x1b[22m") ++
    (if before.underline = after.underline then ""
      else if after.underline then "\x1b[4m" else "\x1b[24m")

/-- Text of which parts have a look of their own. -/
inductive Styled
  | text (s : String)
  | part (look : Look) (body : Styled)
  | append (a b : Styled)
  deriving Repr, DecidableEq

namespace Styled

instance : Append Styled := ⟨append⟩

/-- A part in one colour. -/
def paint (colour : Colour) (s : String) : Styled :=
  part { colour := some colour } (text s)

/-- Texts with the change of look in front of each, and back to the plain look at the end. -/
def switch (look : Look) : List (Look × String) → String
  | [] => look.change {}
  | (next, s) :: parts => look.change next ++ s ++ switch next parts

/-- The parts one after another, each with its look and its own rendering. -/
def parts : Styled → List (Look × String)
  | text s => [({}, s)]
  | part look body => [(look, switch {} body.parts)]
  | append a b => a.parts ++ b.parts

/-- The text with the control sequences of its looks. -/
def ansi (d : Styled) : String :=
  switch {} d.parts

/-- The text without any look. -/
def plain : Styled → String
  | text s => s
  | part _ body => plain body
  | append a b => plain a ++ plain b

end Styled

/-! ### Columns -/

/-- Text filled up with spaces behind it to a width in characters. -/
def padRight (width : Nat) (s : String) : String :=
  s ++ String.ofList (List.replicate (width - s.length) ' ')

/-- Text filled up with a character in front of it to a width in characters. -/
def padLeft (width : Nat) (c : Char) (s : String) : String :=
  String.ofList (List.replicate (width - s.length) c) ++ s

end BytecodeAssembler.Text
