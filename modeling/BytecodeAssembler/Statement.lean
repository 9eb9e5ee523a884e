import BytecodeAssembler.Session
import BytecodeAssembler.Text.Blank

/-!
# Statements: the lines of assembly source

A line is a label, an operation, both or neither, and a comment behind the first `;`:

    loop: push 0x20 ; a comment

* `Operation.ofWords` reads an operation from its words, the first of them in any letter case;
* `Statement.parse` reads a line;
* `Statement.steps` — what the line asks of a session, the label first;
* `Statement.listed` — the line as a listing shows it.
-/

namespace BytecodeAssembler

open Text

/-! ### Operations -/

/-- The first words that an argument may follow. -/
inductive Family
  | push | dup | swap | jump | jumpi
  deriving Repr, DecidableEq

namespace Family

/-- The word of a family, in lower case. -/
def word : Family → String
  | push => "push"
  | dup => "dup"
  | swap => "swap"
  | jump => "jump"
  | jumpi => "jumpi"

/-- Every family. -/
def all : List Family :=
  [push, dup, swap, jump, jumpi]

/-- The family that a word names, in whatever letter case. -/
def ofWord? (w : List Char) : Option Family :=
  all.find? fun family => family.word.toList == lower w

end Family

/-- The one argument that may follow a word. -/
def argument? : List (List Char) → Except Fault (Option (List Char))
  | [] => .ok none
  | [argument] => .ok (some argument)
  | _ :: extra :: _ => .error (.tooManyArguments (String.ofList extra))

/-- A numeral of a stack index: decimal digits, with at most one `+` in front. -/
def indexDigits : List Char → List Char
  | '+' :: digits => digits
  | digits => digits

/-- Reads a stack index from 0 to 255. -/
def readIndex (argument : List Char) : Except Fault UInt8 :=
  match readDecimal? (indexDigits argument) with
  | some n =>
    if n ≤ 255 then .ok (UInt8.ofNat n) else .error (.unreadableIndex (String.ofList argument))
  | none => .error (.unreadableIndex (String.ofList argument))

namespace Operation

/-- Reads an operation of a family from its argument. -/
def ofFamily : Family → Option (List Char) → Except Fault Operation
  | .push, some argument => (Operand.parse argument).map .push
  | .dup, some argument => (readIndex argument).map .dup
  | .swap, some argument => (readIndex argument).map .swap
  | .jump, target => .ok (.jump (target.map String.ofList))
  | .jumpi, target => .ok (.jumpi (target.map String.ofList))
  | _, none => .error .missingArgument

/-- Reads an operation from its words. -/
def ofWords : List (List Char) → Except Fault Operation
  | [] => .error .malformedLine
  | w :: arguments =>
    match Family.ofWord? w with
    | some family =>
      match argument? arguments with
      | .ok argument => ofFamily family argument
      | .error fault => .error fault
    | none =>
      match Opcode.ofWord? w, arguments with
      | none, _ => .error (.unknownOperation (String.ofList w))
      | some o, [] => .ok (.op o)
      | some _, extra :: _ => .error (.tooManyArguments (String.ofList extra))

/-- Reads an operation from text. -/
def parse (text : String) : Except Fault Operation :=
  ofWords (words text.toList)

/-- An operation's word and argument as a listing shows them, the argument in the eighth column. -/
def listedAs (word : String) (argument : Styled) : Styled :=
  .paint .red (padRight 7 word) ++ .part { colour := some .blue } argument

/-- The operation as a listing shows it. -/
def listed : Operation → Styled
  | op o => listedAs o.lowerName (.text "")
  | push v =>
    match v.encode with
    | .ok immediate => listedAs "push" (.paint .yellow ("0x" ++ Bytes.hexOf immediate))
    | .error _ => listedAs "push" (.part { colour := some .red, underline := true } (.text "??"))
  | dup n => listedAs "dup" (.text (decimal n.toNat))
  | swap n => listedAs "swap" (.text (decimal n.toNat))
  | jump target => listedAs "jump" (.text (target.getD ""))
  | jumpi target => listedAs "jumpi" (.text (target.getD ""))

/-- The label that an operation jumps to. -/
def target? : Operation → Option String
  | jump target => target
  | jumpi target => target
  | _ => none

end Operation

/-! ### Statements -/

/-- What a line asks for: a label to place, an operation to append, both or neither. -/
structure Statement where
  label : Option String := none
  operation : Option Operation := none
  deriving Repr, DecidableEq

namespace Statement

/-- A statement that asks for nothing. -/
def isEmpty (st : Statement) : Bool :=
  st.label.isNone && st.operation.isNone

/-- What a statement asks of a session, in order. -/
def steps (st : Statement) : List Step :=
  (st.label.map .place).toList ++ (st.operation.map .perform).toList

/-- Applies a statement to a session: the label stays placed if the operation is refused. -/
def apply (st : Statement) (s : Session) : Session × Option Fault :=
  s.run st.steps

/-- Reads the label in front of a `:`, one word with or without blank characters around it. -/
def readLabel (text : List Char) : Except Fault String :=
  let name := trim text
  if name = [] ∨ name.any isBlank then .error .malformedLine else .ok (String.ofList name)

/-- Reads the operation of a line, if it has one. -/
def readOperation (text : List Char) : Except Fault (Option Operation) :=
  let text := trim text
  if text = [] then .ok none else (Operation.ofWords (words text)).map some

/-- Reads what stands in front of a comment. -/
def ofBody (body : List Char) : Except Fault Statement :=
  match cut ':' body with
  | (text, none) => do
    let operation ← readOperation text
    .ok ⟨none, operation⟩
  | (head, some tail) => do
    let label ← readLabel head
    let operation ← readOperation tail
    .ok ⟨some label, operation⟩

/-- Reads a line: its statement, and the comment behind the first `;`. -/
def parse (line : String) : Except Fault (Statement × Option String) := do
  let (body, comment?) := cut ';' line.toList
  let st ← ofBody body
  .ok (st, comment?.map String.ofList)

/-- The line as a listing shows it: label, operation and comment. -/
def listed (st : Statement) (comment : Option String) : Styled :=
  let label := match st.label with
    | some name => .paint .green (name ++ ":") ++ .text " "
    | none => .text ""
  let operation := match st.operation with
    | some o => o.listed
    | none => .text ""
  let comment := match comment with
    | some text => .text (";" ++ text)
    | none => .text ""
  label ++ operation ++ .text " " ++ comment

end Statement

end BytecodeAssembler
