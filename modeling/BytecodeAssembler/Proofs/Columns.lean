import BytecodeAssembler.Proofs.Folding
import BytecodeAssembler.Proofs.LineEnds
import BytecodeAssembler.Proofs.Naming
import BytecodeAssembler.Proofs.Numbers

/-!
# Source columns

What a listing shows of a line is not the line that was read: names of operations are in lower case,
arguments are in the eighth column, numbers are as short as they are pushed. Nevertheless it is
source text:

* `Styled.unstyled_plain` — it is what is printed, without the changes of look;
* `Operation.operationReads_listed` — the words of a listed operation are read as `relisted`, which
  differs from the operation in the spelling of a number (`shortened`), and in that the name of a
  jump without a target is the word of a jump;
* `Statement.parse_column` — so the column is read with the same label and the same comment, and it
  is one line (`Statement.not_mem_column`).
-/

namespace BytecodeAssembler

open Text

/-! ### What is printed without its looks -/

namespace Text

/-- Text with changes of look in it, and the text without them. -/
inductive Unstyled : String → String → Prop
  | nil : Unstyled "" ""
  | text (s : String) {shown plain : String} : Unstyled shown plain →
      Unstyled (s ++ shown) (s ++ plain)
  | change (before after : Look) {shown plain : String} : Unstyled shown plain →
      Unstyled (before.change after ++ shown) plain

theorem Unstyled.append {shown plain shown' plain' : String} (h : Unstyled shown plain)
    (h' : Unstyled shown' plain') : Unstyled (shown ++ shown') (plain ++ plain') := by
  induction h with
  | nil => simpa using h'
  | text s _ ih =>
    rw [String.append_assoc, String.append_assoc]
    exact .text s ih
  | change before after _ ih =>
    rw [String.append_assoc]
    exact .change before after ih

namespace Styled

@[simp] theorem plain_text (s : String) : (text s).plain = s := rfl

@[simp] theorem plain_part (look : Look) (body : Styled) :
    (part look body).plain = body.plain := rfl

@[simp] theorem plain_paint (colour : Colour) (s : String) : (paint colour s).plain = s := rfl

@[simp] theorem plain_append (a b : Styled) : (a ++ b).plain = a.plain ++ b.plain := rfl

theorem unstyled_switch {parts : List (Look × String)} {plains : List String}
    (h : List.Forall₂ (fun part plain => Unstyled part.2 plain) parts plains) (look : Look) :
    Unstyled (switch look parts) (String.join plains) := by
  induction h generalizing look with
  | nil =>
    rw [switch, ← String.append_empty (s := look.change {}), String.join_nil]
    exact .change look {} .nil
  | @cons part plain _ _ hpart _ ih =>
    rw [switch, String.join_cons, String.append_assoc]
    exact .change look part.1 (hpart.append (ih part.1))

/-- **The text that is printed is the plain text, with changes of look in it.** -/
theorem unstyled_plain (d : Styled) : Unstyled d.ansi d.plain := by
  have hparts : ∃ plains, List.Forall₂ (fun part plain => Unstyled part.2 plain) d.parts plains ∧
      String.join plains = d.plain := by
    induction d with
    | text s =>
      have hs := Unstyled.text s .nil
      rw [String.append_empty] at hs
      exact ⟨[s], .cons hs .nil, by simp⟩
    | part look body ih =>
      obtain ⟨plains, hbody, hplain⟩ := ih
      refine ⟨[body.plain], .cons ?_ .nil, by simp⟩
      rw [← hplain]
      exact unstyled_switch hbody {}
    | append a b iha ihb =>
      obtain ⟨plains, ha, hplain⟩ := iha
      obtain ⟨plains', hb, hplain'⟩ := ihb
      exact ⟨plains ++ plains', List.rel_append ha hb, by simp [plain, hplain, hplain']⟩
  obtain ⟨plains, hforall, hplain⟩ := hparts
  rw [ansi, ← hplain]
  exact unstyled_switch hforall {}

end Styled

end Text

/-! ### What a listed operation is read as -/

/-- The operand as it is pushed, if it can be. -/
def Operand.shortened (v : Operand) : Operand :=
  match v.encode with
  | .ok immediate => ⟨immediate⟩
  | .error _ => v

theorem Operand.shortened_of_encode {v : Operand} {immediate : List UInt8}
    (h : v.encode = .ok immediate) : v.shortened = ⟨immediate⟩ := by
  rw [shortened, h]

/-- An immediate is its own immediate. -/
theorem Operand.encode_immediate {v : Operand} {immediate : List UInt8}
    (h : v.encode = .ok immediate) : (⟨immediate⟩ : Operand).encode = .ok immediate := by
  obtain ⟨hne, -, hminimal⟩ := encode_eq_ok_iff.mp h
  rw [encode_congr hminimal.nonempty hne hminimal.value, h]

namespace Operation

/-- If the operation pushes a number, then one that can be pushed. -/
def Encodes (o : Operation) : Prop :=
  ∀ v, o = .push v → ∃ immediate, v.encode = .ok immediate

/-- The operation with its operand as it is pushed, if it has one. -/
def shortened : Operation → Operation
  | push v => push v.shortened
  | o => o

/-- What the listing of an operation is read as. -/
def relisted (o : Operation) : Operation :=
  match o.shortened with
  | op .JUMP => jump none
  | op .JUMPI => jumpi none
  | o => o

theorem relisted_op {o : Opcode} (hjump : o ≠ .JUMP) (hjumpi : o ≠ .JUMPI) :
    relisted (.op o) = .op o := by
  cases o
  case JUMP => exact absurd rfl hjump
  case JUMPI => exact absurd rfl hjumpi
  all_goals rfl

end Operation

theorem map_ofList_toList (text : Option String) :
    (text.map String.toList).map String.ofList = text := by
  cases text <;> simp

/-! ### Words with spaces between them -/

/-- Text that is words with spaces, and nothing else, around and between them. -/
structure Spaced (cs : List Char) (ws : List (List Char)) : Prop where
  words : Words cs ws
  spaces : ∀ c ∈ cs, c = ' ' ∨ ∃ w ∈ ws, c ∈ w

theorem Spaced.not_mem {cs : List Char} {ws : List (List Char)} (h : Spaced cs ws) {c : Char}
    (hc : c ≠ ' ') (hnone : ∀ w ∈ ws, c ∉ w) : c ∉ cs := by
  intro hmem
  obtain rfl | ⟨w, hw, hcw⟩ := h.spaces c hmem
  · exact hc rfl
  · exact hnone w hw hcw

namespace Operation

theorem toList_listedAs (word : String) (argument : Styled) :
    (listedAs word argument).plain.toList =
      word.toList ++ List.replicate (7 - word.length) ' ' ++ argument.plain.toList := by
  simp [listedAs, padRight]

/-- **A word and an argument in the eighth column**: there is a space between them if the word has
less than seven letters. -/
theorem spaced_listedAs {word : String} {argument : Styled} {a : Option (List Char)}
    (hword : IsWord word.toList) (hargument : argument.plain.toList = a.getD [])
    (ha : ∀ w ∈ a, IsWord w ∧ word.length < 7) :
    Spaced (listedAs word argument).plain.toList (word.toList :: a.toList) := by
  have hspaces : ∀ n, Blanks (List.replicate n ' ') := by
    intro n c hc
    rw [List.eq_of_mem_replicate hc]
    decide
  have hnil : Blanks [] := by simp [Blanks]
  rw [toList_listedAs, hargument, List.append_assoc]
  constructor
  · refine @Words.cons [] word.toList _ a.toList hnil hword ?_ ?_
    · cases a with
      | none =>
        intro c hc
        exact hspaces _ c (by simpa using List.mem_of_mem_head? hc)
      | some w =>
        obtain ⟨n, hn⟩ : ∃ n, 7 - word.length = n + 1 :=
          ⟨6 - word.length, by have := (ha w rfl).2; omega⟩
        rw [hn]
        intro c hc
        obtain rfl : ' ' = c := by simpa [List.replicate_succ] using hc
        decide
    · cases a with
      | none => exact .nil (by simpa using hspaces _)
      | some w => simpa using @Words.cons _ w [] [] (hspaces _) (ha w rfl).1 (by simp) (.nil hnil)
  · intro c hc
    simp only [List.mem_append, List.mem_replicate] at hc
    rcases hc with hc | ⟨-, rfl⟩ | hc
    · exact Or.inr ⟨_, List.mem_cons_self, hc⟩
    · exact Or.inl rfl
    · cases a with
      | none => cases hc
      | some w => exact Or.inr ⟨w, by simp, hc⟩

end Operation

/-! ### Listed operations -/

/-- Lower case can be undone where there was no lower case before. -/
theorem lowerChar_of_isCapital {c : Char} (h : isCapital c) :
    upperChar (lowerChar c) = [c] ∧ lowerChar (lowerChar c) = lowerChar c ∧
      ((48 ≤ (lowerChar c).toNat ∧ (lowerChar c).toNat ≤ 57) ∨
        (65 ≤ (lowerChar c).toNat ∧ (lowerChar c).toNat ≤ 122)) := by
  have hlt : c.toNat < 91 := by
    have hrange := toNat_of_isCapital h
    omega
  exact @char_of_lt 91 (fun c => isCapital c = true → upperChar (lowerChar c) = [c] ∧
    lowerChar (lowerChar c) = lowerChar c ∧
      ((48 ≤ (lowerChar c).toNat ∧ (lowerChar c).toNat ≤ 57) ∨
        (65 ≤ (lowerChar c).toNat ∧ (lowerChar c).toNat ≤ 122))) (by decide) c hlt h

namespace Opcode

theorem toList_lowerName (o : Opcode) : o.lowerName.toList = lower o.mnemonic.toList :=
  String.toList_ofList

theorem isCapital_of_mem_mnemonic {o : Opcode} {c : Char} (h : c ∈ o.mnemonic.toList) :
    isCapital c :=
  List.all_eq_true.mp (capitals_mnemonic o).2 c h

theorem plain_lowerName (o : Opcode) : Plain o.lowerName.toList := by
  rw [toList_lowerName]
  refine plain_of_range (by simpa [lower] using (capitals_mnemonic o).1) ?_
  intro c hc
  obtain ⟨d, hd, rfl⟩ := List.mem_map.mp hc
  exact (lowerChar_of_isCapital (isCapital_of_mem_mnemonic hd)).2.2

theorem upper_lowerName (o : Opcode) : upper o.lowerName.toList = o.mnemonic.toList := by
  rw [toList_lowerName, upper, lower, List.flatMap_map]
  nth_rewrite 2 [← List.flatMap_singleton' o.mnemonic.toList]
  exact List.flatMap_congr fun c hc => (lowerChar_of_isCapital (isCapital_of_mem_mnemonic hc)).1

theorem ofWord?_lowerName (o : Opcode) :
    Family.ofWord? o.lowerName.toList = Family.ofWord? o.mnemonic.toList := by
  have hlower : lower o.lowerName.toList = lower o.mnemonic.toList := by
    rw [toList_lowerName, lower, lower, List.map_map]
    exact List.map_congr_left fun c hc =>
      (lowerChar_of_isCapital (isCapital_of_mem_mnemonic hc)).2.1
  rw [Family.ofWord?, hlower, Family.ofWord?]

end Opcode

namespace Operation

theorem operationReads_lowerName (o : Opcode) :
    OperationReads [o.lowerName.toList] (.ok (relisted (.op o))) := by
  by_cases hjump : o = .JUMP
  · subst hjump
    exact @OperationReads.family _ none .jump _ (by decide) .jump
  by_cases hjumpi : o = .JUMPI
  · subst hjumpi
    exact @OperationReads.family _ none .jumpi _ (by decide) .jumpi
  rw [relisted_op hjump hjumpi]
  have hword := o.ofWord?_lowerName.trans (Step.ofWord?_mnemonic o hjump hjumpi)
  exact .op (Family.ofWord?_eq_none_iff.mp hword) (Or.inl o.upper_lowerName)

/-- An operation that is listed by the word of a family and an argument. -/
theorem operationReads_listedAs {o : Operation} {family : Family} {argument : Styled}
    {a : Option (List Char)} (hlisted : o.listed = listedAs family.word argument)
    (hargument : argument.plain.toList = a.getD []) (happlied : Applied family a (.ok o.relisted))
    (ha : ∀ w ∈ a, IsWord w ∧ (Plain w ∨ o.target? = some (String.ofList w))) :
    ∃ ws, Spaced o.listed.plain.toList ws ∧ OperationReads ws (.ok o.relisted) ∧
      ∀ w ∈ ws, Plain w ∨ o.target? = some (String.ofList w) := by
  have hlength : family.word.length < 7 := by cases family <;> decide
  have hspaced := spaced_listedAs (plain_word family).1 hargument fun w hw => ⟨(ha w hw).1, hlength⟩
  rw [← hlisted] at hspaced
  refine ⟨_, hspaced, .family (lower_word family) happlied, ?_⟩
  intro w hw
  rcases List.mem_cons.mp hw with rfl | hw
  · exact Or.inl (plain_word family)
  · exact (ha w (Option.mem_toList.mp hw)).2

/-- An operation that is listed by the word of a family and a name, if there is one. -/
theorem operationReads_listedTarget {o : Operation} {family : Family}
    (hlisted : o.listed = listedAs family.word (.text (o.target?.getD "")))
    (happlied : Applied family (o.target?.map String.toList) (.ok o.relisted))
    (htarget : ∀ name ∈ o.target?, IsWord name.toList) :
    ∃ ws, Spaced o.listed.plain.toList ws ∧ OperationReads ws (.ok o.relisted) ∧
      ∀ w ∈ ws, Plain w ∨ o.target? = some (String.ofList w) := by
  refine operationReads_listedAs hlisted ?_ happlied ?_
  · cases o.target? <;> rfl
  · intro w hw
    obtain ⟨name, hname, rfl⟩ := Option.map_eq_some_iff.mp hw
    exact ⟨htarget name hname, Or.inr (by rw [hname, String.ofList_toList])⟩

/-- **The words of a listed operation** are read as its `relisted`, and they are plain but for the
target of a jump. -/
theorem operationReads_listed {o : Operation} (hencodes : o.Encodes)
    (htarget : ∀ name ∈ o.target?, IsWord name.toList) :
    ∃ ws, Spaced o.listed.plain.toList ws ∧ OperationReads ws (.ok o.relisted) ∧
      ∀ w ∈ ws, Plain w ∨ o.target? = some (String.ofList w) := by
  have hplain : ∀ {o : Operation} {a : List Char}, Plain a → ∀ w ∈ some a,
      IsWord w ∧ (Plain w ∨ o.target? = some (String.ofList w)) := by
    rintro o a ha w ⟨⟩
    exact ⟨ha.1, Or.inl ha⟩
  cases o with
  | op o =>
    refine ⟨_, @spaced_listedAs o.lowerName (.text "") none o.plain_lowerName.1 rfl (by simp),
      operationReads_lowerName o, ?_⟩
    intro w hw
    obtain rfl := List.mem_singleton.mp hw
    exact Or.inl o.plain_lowerName
  | push v =>
    obtain ⟨immediate, himmediate⟩ := hencodes v rfl
    have hlisted : (push v).listed = listedAs Family.push.word
        (.paint .yellow ("0x" ++ Bytes.hexOf immediate)) := by
      simp only [listed, himmediate, Family.word]
    have hrelisted : (push v).relisted = push ⟨immediate⟩ := by
      simp only [relisted, shortened, Operand.shortened_of_encode himmediate]
    refine operationReads_listedAs (a := some _) hlisted ?_ ?_ (hplain (plain_hexDigits immediate))
    · simp [Bytes.hexOf]
    · rw [hrelisted]
      exact .push (Operand.pushLiteral_hexDigits ⟨immediate⟩)
  | dup n =>
    exact @operationReads_listedAs _ .dup _ (some _) rfl (by simp [decimal])
      (.dup (indexLiteral_toDigits n)) (hplain (plain_toDigits n.toNat))
  | swap n =>
    exact @operationReads_listedAs _ .swap _ (some _) rfl (by simp [decimal])
      (.swap (indexLiteral_toDigits n)) (hplain (plain_toDigits n.toNat))
  | jump target =>
    have happlied := @Applied.jump (target.map String.toList)
    rw [map_ofList_toList] at happlied
    exact operationReads_listedTarget rfl happlied htarget
  | jumpi target =>
    have happlied := @Applied.jumpi (target.map String.toList)
    rw [map_ofList_toList] at happlied
    exact operationReads_listedTarget rfl happlied htarget

end Operation

/-! ### Listed lines -/

namespace Statement

/-- The source column of a listing, without its looks. -/
def column (st : Statement) (comment : Option String) : String :=
  (st.listed comment).plain

/-- The operation in a source column, if there is one. -/
def shownOperation (st : Statement) : List Char :=
  (st.operation.map fun o => o.listed.plain.toList).getD []

theorem toList_column (st : Statement) (comment : Option String) :
    (st.column comment).toList =
      (st.label.map fun name => name.toList ++ [':', ' ']).getD [] ++ (st.shownOperation ++
        ' ' :: (comment.map fun text => ';' :: text.toList).getD []) := by
  obtain ⟨_ | label, _ | operation⟩ := st <;> cases comment <;>
    simp [column, listed, shownOperation]

theorem restReads_cons_blank {cs : List Char} {c : Char} {r : Except Fault (Option Operation)}
    (h : RestReads cs r) (hc : isBlank c = true) : RestReads (c :: cs) r := by
  cases h with
  | blank hblanks => exact .blank (List.forall_mem_cons.mpr ⟨hc, hblanks⟩)
  | operation hwords hreads => exact .operation (hwords.cons_blank hc) hreads

/-- **A source column is read** as its label, what its operation is read as, and its comment. -/
theorem lineReads_column {st : Statement} {operation : Option Operation}
    (hlabel : ∀ name ∈ st.label, Plain name.toList) (hsemicolon : ';' ∉ st.shownOperation)
    (hcolon : st.label = none → ':' ∉ st.shownOperation)
    (hreads : RestReads st.shownOperation (.ok operation)) (comment : Option String) :
    LineReads (st.column comment).toList (.ok (⟨st.label, operation⟩, comment)) := by
  have hcut : ∀ front : List Char, ';' ∉ front → Cut ';'
      (front ++ (st.shownOperation ++
        ' ' :: (comment.map fun text => ';' :: text.toList).getD []))
      (front ++ (st.shownOperation ++ [' '])) (comment.map String.toList) := by
    intro front hfront
    have hbody : ';' ∉ front ++ (st.shownOperation ++ [' ']) := by simp [hfront, hsemicolon]
    cases comment with
    | none => exact .whole hbody
    | some text => simpa using @Cut.split ';' _ text.toList hbody
  have hspace : RestReads (st.shownOperation ++ [' ']) (.ok operation) :=
    restReads_append_blanks (List.forall_mem_singleton.mpr rfl) hreads
  rw [toList_column]
  cases hst : st.label with
  | none =>
    have hbody : ':' ∉ st.shownOperation ++ [' '] := by simp [hcolon hst]
    have hline := LineReads.unlabelled (hcut [] (by simp)) hbody hspace
    rw [map_ofList_toList] at hline
    exact hline
  | some name =>
    obtain ⟨hword, hcolon', hsemicolon'⟩ := hlabel name hst
    have hname : Encloses name.toList name.toList :=
      ⟨hword, [], [], by simp [Blanks], by simp [Blanks], by simp⟩
    have hcolonCut : Cut ':' ((name.toList ++ [':', ' ']) ++ (st.shownOperation ++ [' ']))
        name.toList (some (' ' :: (st.shownOperation ++ [' ']))) := by
      simpa using @Cut.split ':' _ (' ' :: (st.shownOperation ++ [' '])) hcolon'
    have hline := LineReads.labelled (hcut (name.toList ++ [':', ' ']) (by simp [hsemicolon']))
      hcolonCut hname (restReads_cons_blank hspace rfl)
    rw [map_ofList_toList, String.ofList_toList] at hline
    exact hline

section Read

variable {line : String} {st : Statement} {comment : Option String}
  (h : parse line = .ok (st, comment)) (hencodes : ∀ o ∈ st.operation, o.Encodes)
include h hencodes

/-- What is shown of the operation of a line is spaces and words, and is read. -/
theorem exists_shown : ∃ ws, Spaced st.shownOperation ws ∧
    RestReads st.shownOperation (.ok (st.operation.map Operation.relisted)) ∧
    ∀ w ∈ ws, Plain w ∨ st.operation.bind Operation.target? = some (String.ofList w) := by
  have hword : ∀ name, st.operation.bind Operation.target? = some name → IsWord name.toList :=
    fun name hname => (word_of_target h hname).1
  cases ho : st.operation with
  | none =>
    have hnil : st.shownOperation = [] := by simp [shownOperation, ho]
    have hblanks : Blanks [] := by simp [Blanks]
    rw [hnil]
    exact ⟨[], ⟨.nil hblanks, by simp⟩, .blank hblanks, by simp⟩
  | some o =>
    have hshown : st.shownOperation = o.listed.plain.toList := by simp [shownOperation, ho]
    rw [ho] at hword
    obtain ⟨ws, hspaced, hreads, hplain⟩ := Operation.operationReads_listed (hencodes o ho) hword
    rw [hshown]
    exact ⟨ws, hspaced, .operation hspaced.words hreads, hplain⟩

/-- A character that is none of a name is none of what is shown of an operation, but for spaces. -/
theorem not_mem_shown {c : Char} (hc : c ≠ ' ') (hplain : ∀ w, Plain w → c ∉ w)
    (htarget : ∀ name, st.operation.bind Operation.target? = some name → c ∉ name.toList) :
    c ∉ st.shownOperation := by
  obtain ⟨ws, hspaced, -, hws⟩ := exists_shown h hencodes
  refine hspaced.not_mem hc fun w hw => ?_
  rcases hws w hw with hw | hw
  · exact hplain w hw
  · simpa using htarget _ hw

/-- **The source column of a line is read** with its label, its comment, and what its operation is
read as. -/
theorem parse_column : parse (st.column comment) =
    .ok (⟨st.label, st.operation.map Operation.relisted⟩, comment) := by
  obtain ⟨-, -, hreads, -⟩ := exists_shown h hencodes
  refine parse_of_lineReads (lineReads_column (fun name => plain_of_label h) ?_ ?_ hreads comment)
  · exact not_mem_shown h hencodes (by decide) (fun w hw => hw.2.2)
      fun name hname => (word_of_target h hname).2.1
  · intro hlabel
    exact not_mem_shown h hencodes (by decide) (fun w hw => hw.2.1)
      fun name hname => (word_of_target h hname).2.2 hlabel

/-- A source column is one line if its line was one. -/
theorem not_mem_column (hline : '\n' ∉ line.toList) : '\n' ∉ (st.column comment).toList := by
  have hword : ∀ {w : List Char}, IsWord w → '\n' ∉ w := by
    intro w hw hmem
    exact absurd (hw.2 _ hmem) (by decide)
  have hlabel : ∀ name ∈ st.label, '\n' ∉ name.toList :=
    fun name hname => hword (plain_of_label h hname).1
  have hcomment : ∀ text ∈ comment, '\n' ∉ text.toList := by
    rintro text rfl
    obtain ⟨body, rest, comment', hcut, hcomment, -, -⟩ := exists_parts h
    obtain ⟨text', rfl, rfl⟩ := Option.map_eq_some_iff.mp hcomment.symm
    rw [String.toList_ofList]
    exact fun hmem => hline (hcut.after_subset hmem)
  have hshown : '\n' ∉ st.shownOperation :=
    not_mem_shown h hencodes (by decide) (fun w hw => hword hw.1)
      fun name hname => hword (word_of_target h hname).1
  rw [toList_column]
  cases hst : st.label <;> cases hc : comment <;> simp_all

end Read

end Statement

end BytecodeAssembler
