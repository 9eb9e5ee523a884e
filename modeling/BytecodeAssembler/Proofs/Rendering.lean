import BytecodeAssembler.Proofs.Grammar
import BytecodeAssembler.Proofs.Frame

/-!
# Steps written as lines

Every step has a line that asks for it, if the name in it, if there is one, can stand in a line
(`Plain`):

* `Step.render` — the line of a step;
* `Step.statement` — the statement that the line is read as (`parse_render`);
* `Session.attemptLines` — lines read and applied one after another.

Applying the statement of a step is taking the step (`apply_statement`), though two operations come
back as another one: the words `JUMP` and `JUMPI` ask for a jump without a target. So a session
built from lines is the session built from the steps (`attemptLines_render`).
-/

namespace BytecodeAssembler

open Text

/-! ### Words that stand for themselves -/

/-- A word that neither ends a label nor begins a comment. -/
def Plain (w : List Char) : Prop :=
  IsWord w ∧ ':' ∉ w ∧ ';' ∉ w

instance (w : List Char) : Decidable (Plain w) :=
  decidable_of_iff ((w ≠ [] ∧ w.all fun c => !isBlank c) ∧ ':' ∉ w ∧ ';' ∉ w)
    (by simp [Plain, IsWord])

/-- A capital letter or a digit of ASCII. -/
def isCapital (c : Char) : Bool :=
  (48 ≤ c.toNat && c.toNat ≤ 57) || (65 ≤ c.toNat && c.toNat ≤ 90)

/-- A word of letters and digits of ASCII is plain. -/
theorem plain_of_range {w : List Char} (hne : w ≠ [])
    (h : ∀ c ∈ w, (48 ≤ c.toNat ∧ c.toNat ≤ 57) ∨ (65 ≤ c.toNat ∧ c.toNat ≤ 122)) : Plain w := by
  refine ⟨⟨hne, ?_⟩, ?_, ?_⟩
  · intro c hc
    have hrange := h c hc
    simp only [isBlank, Bool.or_eq_false_iff, Bool.and_eq_false_iff, decide_eq_false_iff_not,
      beq_eq_false_iff_ne]
    omega
  · intro hcolon
    exact absurd (h ':' hcolon) (by decide)
  · intro hsemicolon
    exact absurd (h ';' hsemicolon) (by decide)

theorem capitals_mnemonic (o : Opcode) :
    o.mnemonic.toList ≠ [] ∧ o.mnemonic.toList.all isCapital := by
  cases o <;> decide

theorem toNat_of_isCapital {c : Char} (h : isCapital c) :
    (48 ≤ c.toNat ∧ c.toNat ≤ 57) ∨ (65 ≤ c.toNat ∧ c.toNat ≤ 90) := by
  simpa [isCapital] using h

theorem plain_mnemonic (o : Opcode) : Plain o.mnemonic.toList := by
  obtain ⟨hne, hall⟩ := capitals_mnemonic o
  refine plain_of_range hne ?_
  intro c hc
  have hrange := toNat_of_isCapital (List.all_eq_true.mp hall c hc)
  omega

theorem plain_word (family : Family) : Plain family.word.toList := by
  cases family <;> decide

theorem plain_hexDigits (bytes : List UInt8) : Plain ('0' :: 'x' :: Bytes.hexDigits bytes) := by
  have hdigit : ∀ n < 16, (48 ≤ (Bytes.hexDigit n).toNat ∧ (Bytes.hexDigit n).toNat ≤ 57) ∨
      (65 ≤ (Bytes.hexDigit n).toNat ∧ (Bytes.hexDigit n).toNat ≤ 122) := by decide
  refine plain_of_range (by simp) ?_
  intro c hc
  rcases List.mem_cons.mp hc with rfl | hc
  · decide
  rcases List.mem_cons.mp hc with rfl | hc
  · decide
  obtain ⟨b, -, hpair⟩ := List.mem_flatMap.mp hc
  have hb : b.toNat < 256 := b.toNat_lt
  rcases List.mem_cons.mp hpair with rfl | hlow
  · exact hdigit _ (by omega)
  · obtain rfl := List.mem_singleton.mp hlow
    exact hdigit _ (by omega)

theorem plain_toDigits (n : Nat) : Plain (Nat.toDigits 10 n) := by
  refine plain_of_range Nat.toDigits_ne_nil ?_
  intro c hc
  exact Or.inl (toNat_of_isDigit (isDigit_of_mem_toDigits hc))

/-! ### Words that no case mapping changes -/

theorem upperChar_of_isCapital {c : Char} (h : isCapital c) : upperChar c = [c] := by
  have hrange := toNat_of_isCapital h
  have hlower : ¬ ('a' ≤ c ∧ c ≤ 'z') := by
    rw [Char.le_def, Char.le_def, UInt32.le_iff_toNat_le, UInt32.le_iff_toNat_le]
    show ¬ (97 ≤ c.toNat ∧ c.toNat ≤ 122)
    omega
  unfold upperChar
  rw [if_neg hlower]
  split
  case h_11 => rfl
  -- the other characters are not ASCII
  all_goals exact absurd h (by decide)

theorem upper_mnemonic (o : Opcode) : upper o.mnemonic.toList = o.mnemonic.toList := by
  have hall := List.all_eq_true.mp (capitals_mnemonic o).2
  have himage : o.mnemonic.toList.flatMap upperChar = o.mnemonic.toList.flatMap ([·]) :=
    List.flatMap_congr fun c hc => upperChar_of_isCapital (hall c hc)
  rw [upper, himage, List.flatMap_singleton']

theorem lower_word (family : Family) : lower family.word.toList = family.word.toList := by
  cases family <;> decide

/-! ### Lines of words -/

theorem words_one {w : List Char} (hw : IsWord w) : Words w [w] := by
  have h := @Words.cons [] w [] [] (by simp [Blanks]) hw (by simp) (.nil (by simp [Blanks]))
  simpa using h

theorem words_two {w a : List Char} (hw : IsWord w) (ha : IsWord a) :
    Words (w ++ ' ' :: a) [w, a] := by
  have hspace : Words (' ' :: a) [a] := (words_one ha).cons_blank (by decide)
  have hhead : ∀ c ∈ (' ' :: a).head?, isBlank c = true := by
    intro c hc
    obtain rfl : ' ' = c := by simpa using hc
    decide
  exact @Words.cons [] w (' ' :: a) [a] (by simp [Blanks]) hw hhead hspace

theorem lineReads_one {w : List Char} {o : Operation} (hw : Plain w)
    (hreads : OperationReads [w] (.ok o)) : LineReads w (.ok (⟨none, some o⟩, none)) := by
  obtain ⟨hword, hcolon, hsemicolon⟩ := hw
  exact .unlabelled (.whole hsemicolon) hcolon (.operation (words_one hword) hreads)

theorem lineReads_two {w a : List Char} {o : Operation} (hw : Plain w) (ha : Plain a)
    (hreads : OperationReads [w, a] (.ok o)) :
    LineReads (w ++ ' ' :: a) (.ok (⟨none, some o⟩, none)) := by
  obtain ⟨hword, hcolon, hsemicolon⟩ := hw
  obtain ⟨hword', hcolon', hsemicolon'⟩ := ha
  have hnot : ∀ c, c ∉ w → c ∉ a → c ≠ ' ' → c ∉ w ++ ' ' :: a := by
    intro c hcw hca hne
    simp [hcw, hca, hne]
  exact .unlabelled (.whole (hnot _ hsemicolon hsemicolon' (by decide)))
    (hnot _ hcolon hcolon' (by decide)) (.operation (words_two hword hword') hreads)

/-- The word of a family alone. -/
theorem lineReads_bare {family : Family} {o : Operation} (h : Applied family none (.ok o)) :
    LineReads family.word.toList (.ok (⟨none, some o⟩, none)) :=
  lineReads_one (plain_word family)
    (@OperationReads.family _ none family _ (lower_word family) h)

/-- The word of a family and its argument. -/
theorem lineReads_applied {family : Family} {a : List Char} {o : Operation} (ha : Plain a)
    (h : Applied family (some a) (.ok o)) :
    LineReads (family.word.toList ++ ' ' :: a) (.ok (⟨none, some o⟩, none)) :=
  lineReads_two (plain_word family) ha
    (@OperationReads.family _ (some a) family _ (lower_word family) h)

theorem lineReads_label {w : List Char} (hw : Plain w) :
    LineReads (w ++ [':']) (.ok (⟨some (String.ofList w), none⟩, none)) := by
  obtain ⟨hword, hcolon, hsemicolon⟩ := hw
  have hwhole : ';' ∉ w ++ [':'] := by simp [hsemicolon]
  have hencloses : Encloses w w := ⟨hword, [], [], by simp [Blanks], by simp [Blanks], by simp⟩
  exact .labelled (.whole hwhole) (.split hcolon) hencloses (.blank (by simp [Blanks]))

/-! ### Steps as lines -/

namespace Step

/-- The line that asks for a step. -/
def render : Step → String
  | place name => name ++ ":"
  | perform (.op o) => o.mnemonic
  | perform (.push v) => "push 0x" ++ Bytes.hexOf v.bytes
  | perform (.dup n) => "dup " ++ decimal n.toNat
  | perform (.swap n) => "swap " ++ decimal n.toNat
  | perform (.jump none) => "jump"
  | perform (.jump (some name)) => "jump " ++ name
  | perform (.jumpi none) => "jumpi"
  | perform (.jumpi (some name)) => "jumpi " ++ name

/-- What the line of a step is read as: the words of the jump operations are those of bare jumps. -/
def statement : Step → Statement
  | place name => ⟨some name, none⟩
  | perform (.op .JUMP) => ⟨none, some (.jump none)⟩
  | perform (.op .JUMPI) => ⟨none, some (.jumpi none)⟩
  | perform o => ⟨none, some o⟩

/-- A step whose names can stand in a line. -/
def Named (a : Step) : Prop :=
  (∀ name ∈ a.label?, Plain name.toList) ∧ ∀ name ∈ a.reference?, Plain name.toList

instance (a : Step) : Decidable a.Named :=
  inferInstanceAs (Decidable
    ((∀ name ∈ a.label?, Plain name.toList) ∧ ∀ name ∈ a.reference?, Plain name.toList))

theorem ofWord?_mnemonic (o : Opcode) :
    o ≠ .JUMP → o ≠ .JUMPI → Family.ofWord? o.mnemonic.toList = none := by
  cases o <;> decide

theorem statement_op {o : Opcode} (hjump : o ≠ .JUMP) (hjumpi : o ≠ .JUMPI) :
    (perform (.op o)).statement = ⟨none, some (.op o)⟩ := by
  cases o
  case JUMP => exact absurd rfl hjump
  case JUMPI => exact absurd rfl hjumpi
  all_goals rfl

/-- **The line of a step is read as its statement.** -/
theorem lineReads_render {a : Step} (h : a.Named) :
    LineReads a.render.toList (.ok (a.statement, none)) := by
  rcases a with name | (o | v | n | n | (_ | name) | (_ | name))
  case place =>
    have hline := lineReads_label (h.1 name rfl)
    rw [String.ofList_toList] at hline
    simpa [render, statement] using hline
  case perform.op =>
    by_cases hjump : o = .JUMP
    · subst hjump
      exact lineReads_one (plain_mnemonic .JUMP)
        (@OperationReads.family _ none .jump _ (by decide) .jump)
    by_cases hjumpi : o = .JUMPI
    · subst hjumpi
      exact lineReads_one (plain_mnemonic .JUMPI)
        (@OperationReads.family _ none .jumpi _ (by decide) .jumpi)
    have hword := Family.ofWord?_eq_none_iff.mp (ofWord?_mnemonic o hjump hjumpi)
    rw [statement_op hjump hjumpi]
    exact lineReads_one (plain_mnemonic o) (.op hword (Or.inl (upper_mnemonic o)))
  case perform.push =>
    have hline := lineReads_applied (plain_hexDigits v.bytes) (.push v.pushLiteral_hexDigits)
    simpa [render, Bytes.hexOf, Family.word, statement] using hline
  case perform.dup =>
    have hline := lineReads_applied (plain_toDigits n.toNat) (.dup (indexLiteral_toDigits n))
    simpa [render, decimal, Family.word, statement] using hline
  case perform.swap =>
    have hline := lineReads_applied (plain_toDigits n.toNat) (.swap (indexLiteral_toDigits n))
    simpa [render, decimal, Family.word, statement] using hline
  case perform.jump.none => exact lineReads_bare .jump
  case perform.jumpi.none => exact lineReads_bare .jumpi
  case perform.jump.some =>
    have hline := lineReads_applied (h.2 name rfl) .jump
    simpa [render, Family.word, statement] using hline
  case perform.jumpi.some =>
    have hline := lineReads_applied (h.2 name rfl) .jumpi
    simpa [render, Family.word, statement] using hline

theorem parse_render {a : Step} (h : a.Named) :
    Statement.parse a.render = .ok (a.statement, none) :=
  Statement.parse_of_lineReads (lineReads_render h)

end Step

/-! ### Sessions from lines -/

namespace Session

/-- Reads lines and applies their statements, and says of each line why it was refused. -/
def attemptLines (s : Session) : List String → Session × List (Option Fault)
  | [] => (s, [])
  | line :: lines =>
    match Statement.parse line with
    | .ok (st, _) =>
      let (t, fault?) := st.apply s
      let (u, faults) := t.attemptLines lines
      (u, fault? :: faults)
    | .error fault =>
      let (u, faults) := s.attemptLines lines
      (u, some fault :: faults)

/-- **Applying the statement of a step is taking the step.** -/
theorem apply_statement (s : Session) (a : Step) : a.statement.apply s = s.step a := by
  rcases a with name | (o | v | n | n | target | target)
  case perform.op =>
    by_cases hjump : o = .JUMP
    · subst hjump
      exact run_singleton s (.perform (.jump none))
    by_cases hjumpi : o = .JUMPI
    · subst hjumpi
      exact run_singleton s (.perform (.jumpi none))
    rw [Step.statement_op hjump hjumpi]
    exact run_singleton s (.perform (.op o))
  all_goals exact run_singleton s _

theorem attemptLines_render_eq (s : Session) {as : List Step} (h : ∀ a ∈ as, a.Named) :
    s.attemptLines (as.map Step.render) = s.attempt as := by
  induction as generalizing s with
  | nil => rfl
  | cons a as ih =>
    have ha := Step.parse_render (h a List.mem_cons_self)
    have hrest := fun t => ih t fun b hb => h b (List.mem_cons_of_mem _ hb)
    simp only [List.map_cons, attemptLines, ha, apply_statement, hrest, attempt]

/-- **Lines and steps build the same session.** Every line of a step is read, and after any number
of lines the session and what was said of each line are those of the steps themselves. -/
theorem attemptLines_render {as : List Step} (h : ∀ a ∈ as, a.Named) :
    (∀ a ∈ as, Statement.parse a.render = .ok (a.statement, none)) ∧
      ∀ k, attemptLines {} ((as.map Step.render).take k) = attempt {} (as.take k) := by
  refine ⟨fun a ha => Step.parse_render (h a ha), ?_⟩
  intro k
  rw [← List.map_take]
  exact attemptLines_render_eq {} fun a ha => h a (List.mem_of_mem_take ha)

/-- A jump to a label, a jump by its opcode, and steps that are refused from lines as well. -/
theorem attemptLines_render_refused :
    let as : List Step := [.place "début", .perform (.jump (some "début")), .perform (.op .JUMP),
      .perform (.push ⟨[]⟩), .perform (.push ⟨[0x00, 0xFF]⟩), .perform (.dup 200), .place "début"]
    (∀ a ∈ as, a.Named) ∧
      as.map Step.render =
        ["début:", "jump début", "JUMP", "push 0x", "push 0x00ff", "dup 200", "début:"] ∧
      attemptLines {} (as.map Step.render) =
        (⟨#[0x5B, 0x62, 0, 0, 0, 0x56, 0x56, 0x60, 0xFF], ⟨#[("début", 0)], #[]⟩⟩,
          [none, none, none, some (.invalidOperand "0x"), none, some (.dupOutOfRange 200),
            some (.duplicateLabel "début")]) := by
  intro as
  have hnamed : ∀ a ∈ as, a.Named := by decide
  obtain ⟨-, hattempt⟩ := attemptLines_render hnamed
  refine ⟨hnamed, by decide, ?_⟩
  have hlines := hattempt as.length
  rw [← List.map_take, List.take_length] at hlines
  rw [hlines]
  decide

end Session

end BytecodeAssembler
