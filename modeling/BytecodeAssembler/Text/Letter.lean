/-!
# Letter case, as far as it reaches ASCII

Operation words are compared with ASCII names without regard to case. `upper` and `lower` are the
Unicode case mappings on every character whose image lies in ASCII; all other characters stand for
themselves. Such a character is not ASCII, nor is its image under the full mappings, so a comparison
with an ASCII word comes out the same.

The characters outside ASCII that reach it: dotless `ı`, long `ſ`, `ß` and the Latin ligatures
`ﬀ` to `ﬆ` on the way up, and the Kelvin sign on the way down.
-/

namespace BytecodeAssembler.Text

/-- The upper-case image of a character, where it lies in ASCII. -/
def upperChar (c : Char) : List Char :=
  if 'a' ≤ c ∧ c ≤ 'z' then [Char.ofNat (c.toNat - 32)]
  else match c with
    | 'ı' => ['I']
    | 'ſ' => ['S']
    | 'ß' => ['S', 'S']
    | 'ﬀ' => ['F', 'F']
    | 'ﬁ' => ['F', 'I']
    | 'ﬂ' => ['F', 'L']
    | 'ﬃ' => ['F', 'F', 'I']
    | 'ﬄ' => ['F', 'F', 'L']
    | 'ﬅ' => ['S', 'T']
    | 'ﬆ' => ['S', 'T']
    | c => [c]

/-- The lower-case image of a character, where it lies in ASCII. -/
def lowerChar (c : Char) : Char :=
  if 'A' ≤ c ∧ c ≤ 'Z' then Char.ofNat (c.toNat + 32)
  else if c.toNat = 0x212A then 'k' else c

/-- A word in upper case, as far as it reaches ASCII. -/
def upper (cs : List Char) : List Char :=
  cs.flatMap upperChar

/-- A word in lower case, as far as it reaches ASCII. -/
def lower (cs : List Char) : List Char :=
  cs.map lowerChar

end BytecodeAssembler.Text
