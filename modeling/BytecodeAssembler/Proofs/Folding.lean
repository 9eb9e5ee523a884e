import Mathlib.Data.List.Basic
import BytecodeAssembler.Opcode.Lookup
import BytecodeAssembler.Proofs.Grammar

/-!
# The letter case of jump words

A family is found by the lower case of a word, and an operation by its upper case. The names of two
operations, `JUMP` and `JUMPI`, are words of families too (`Opcode.family?`), so it matters whether
both ways agree on which words these are.

* `lower_upper` — the way up and down again is the way down, but for the dotless `ı` and for the
  letters that become an `S` or an `F`;
* `lower_of_names` — so a word of `JUMP` or `JUMPI` without a dotless `ı` is the word of its family;
* `lower_ne_word_of_dotless` — a word with a dotless `ı` is the word of no family, though it may
  name `JUMPI`.
-/

namespace BytecodeAssembler

namespace Text

/-! ### Up and down again -/

/-- What holds of the characters below a number holds of a character below it. -/
theorem char_of_lt {b : Nat} {P : Char → Prop} (h : ∀ n < b, P (Char.ofNat n)) {c : Char}
    (hc : c.toNat < b) : P c := by
  have hP := h c.toNat hc
  rwa [Char.ofNat_toNat] at hP

theorem lowerChar_upperChar_letter {c : Char} (h : 'a' ≤ c ∧ c ≤ 'z') :
    lowerChar (Char.ofNat (c.toNat - 32)) = lowerChar c := by
  simp only [Char.le_def, UInt32.le_iff_toNat_le] at h
  exact @char_of_lt 123
    (fun c => 97 ≤ c.toNat → lowerChar (Char.ofNat (c.toNat - 32)) = lowerChar c) (by decide) c
    (Nat.lt_succ_of_le h.2) h.1

theorem map_lowerChar_upperChar {c : Char} (hdotless : c ≠ 'ı') (hs : 'S' ∉ upperChar c)
    (hf : 'F' ∉ upperChar c) : (upperChar c).map lowerChar = [lowerChar c] := by
  unfold upperChar at *
  split at hs
  · next hletter =>
    rw [if_pos hletter, List.map_singleton, lowerChar_upperChar_letter hletter]
  · next hletter =>
    rw [if_neg hletter] at hf ⊢
    split at hs
    case h_1 => exact absurd rfl hdotless
    case h_2 | h_3 | h_9 | h_10 => exact absurd (by decide) hs
    case h_4 | h_5 | h_6 | h_7 | h_8 => exact absurd (by decide) hf
    case h_11 => rfl

theorem lower_upper {w : List Char} (hdotless : 'ı' ∉ w) (hs : 'S' ∉ upper w)
    (hf : 'F' ∉ upper w) : lower (upper w) = lower w := by
  rw [lower, upper, List.map_flatMap, lower, ← List.flatMap_singleton' (w.map lowerChar),
    List.flatMap_map]
  refine List.flatMap_congr fun c hc => map_lowerChar_upperChar ?_ ?_ ?_
  · rintro rfl
    exact hdotless hc
  · exact fun hmem => hs (List.mem_flatMap.mpr ⟨c, hc, hmem⟩)
  · exact fun hmem => hf (List.mem_flatMap.mpr ⟨c, hc, hmem⟩)

theorem mem_upper_of_dotless {w : List Char} (h : 'ı' ∈ w) : 'I' ∈ upper w :=
  List.mem_flatMap.mpr ⟨'ı', h, by decide⟩

end Text

open Text

/-! ### Words of the jump operations -/

/-- The family whose word is the name of an operation. -/
def Opcode.family? : Opcode → Option Family
  | .JUMP => some .jump
  | .JUMPI => some .jumpi
  | _ => none

theorem names_of_family? {w : List Char} {o : Opcode} {family : Family}
    (hfamily : o.family? = some family) (h : Names w o) : upper w = o.mnemonic.toList := by
  rcases h with h | ⟨rfl, -⟩
  · exact h
  · cases hfamily

/-- **A word of a jump operation is the word of its family**, if no letter of it is dotless. -/
theorem lower_of_names {w : List Char} {o : Opcode} {family : Family}
    (hfamily : o.family? = some family) (h : Names w o) (hdotless : 'ı' ∉ w) :
    lower w = family.word.toList := by
  have hupper := names_of_family? hfamily h
  cases o
  case JUMP | JUMPI =>
    obtain rfl := Option.some.inj hfamily
    rw [← lower_upper hdotless (hupper ▸ by decide) (hupper ▸ by decide), hupper]
    decide
  all_goals cases hfamily

theorem not_dotless_of_names_jump {w : List Char} (h : Names w .JUMP) : 'ı' ∉ w := by
  intro hmem
  have hletter := mem_upper_of_dotless hmem
  rw [names_of_family? (o := .JUMP) rfl h] at hletter
  exact absurd hletter (by decide)

theorem lower_ne_word_of_dotless {w : List Char} (h : 'ı' ∈ w) (family : Family) :
    lower w ≠ family.word.toList := by
  have hmem : 'ı' ∈ lower w := List.mem_map.mpr ⟨'ı', h, by decide⟩
  intro hword
  rw [hword] at hmem
  cases family <;> exact absurd hmem (by decide)

/-! ### What is read of them -/

theorem Opcode.parse_eq_ok_iff {w : String} {o : Opcode} :
    Opcode.parse w = .ok o ↔ Names w.toList o := by
  rw [← Opcode.ofWord?_eq_some_iff, Opcode.parse]
  cases Opcode.ofWord? w.toList with
  | some found => simp
  | none => simp

/-- An operation is read only of one word, which names it and no family. -/
theorem reads_op_iff {ws : List (List Char)} {o : Opcode} :
    OperationReads ws (.ok (.op o)) ↔
      ∃ w, ws = [w] ∧ (∀ family : Family, lower w ≠ family.word.toList) ∧ Names w o := by
  constructor
  · intro h
    cases h with
    | family hword happlied => cases happlied
    | op hword hname => exact ⟨_, rfl, hword, hname⟩
  · rintro ⟨w, rfl, hword, hname⟩
    exact .op hword hname

/-- A jump operation is read as an operation, and not as a jump, only of a word with a dotless
letter. -/
theorem reads_op_of_family? {ws : List (List Char)} {o : Opcode} {family : Family}
    (hfamily : o.family? = some family) :
    OperationReads ws (.ok (.op o)) ↔ ∃ w, ws = [w] ∧ Names w o ∧ 'ı' ∈ w := by
  rw [reads_op_iff]
  constructor
  · rintro ⟨w, rfl, hword, hname⟩
    refine ⟨w, rfl, hname, ?_⟩
    by_contra hdotless
    exact hword family (lower_of_names hfamily hname hdotless)
  · rintro ⟨w, rfl, hname, hdotless⟩
    exact ⟨w, rfl, lower_ne_word_of_dotless hdotless, hname⟩

theorem not_reads_op_jump {ws : List (List Char)} : ¬ OperationReads ws (.ok (.op .JUMP)) := by
  rw [reads_op_of_family? (o := .JUMP) rfl]
  rintro ⟨w, -, hname, hdotless⟩
  exact not_dotless_of_names_jump hname hdotless

namespace Operation

theorem parse_of_reads {text : String} {ws : List (List Char)} {r : Except Fault Operation}
    (hwords : Words text.toList ws) (h : OperationReads ws r) : Operation.parse text = r := by
  rw [Operation.parse, hwords.words_eq, ofWords_of_reads h]

theorem parse_eq_ok_iff {text : String} {o : Operation} :
    Operation.parse text = .ok o ↔ ∃ ws, Words text.toList ws ∧ OperationReads ws (.ok o) := by
  constructor
  · intro h
    obtain ⟨ws, hwords⟩ := exists_words text.toList
    refine ⟨ws, hwords, ?_⟩
    cases ws with
    | nil =>
      rw [Operation.parse, hwords.words_eq] at h
      cases h
    | cons w arguments =>
      obtain ⟨r, hreads⟩ := exists_operationReads w arguments
      rw [parse_of_reads hwords hreads] at h
      rwa [h] at hreads
  · rintro ⟨ws, hwords, hreads⟩
    exact parse_of_reads hwords hreads

/-- A word of `JUMPI` with a dotless letter stands alone. -/
theorem parse_of_dotless {w : List Char} (hname : Names w .JUMPI) (hdotless : 'ı' ∈ w)
    {text : String} {arguments : List (List Char)} (hwords : Words text.toList (w :: arguments)) :
    Operation.parse text = match arguments with
      | [] => .ok (.op .JUMPI)
      | extra :: _ => .error (.tooManyArguments (String.ofList extra)) := by
  have hfamily := lower_ne_word_of_dotless hdotless
  cases arguments with
  | nil => exact parse_of_reads hwords (.op hfamily hname)
  | cons extra more => exact parse_of_reads hwords (.opCrowded hfamily hname)

/-- **A word of `JUMP` or `JUMPI` takes a target**, unless it is spelled with a dotless letter. No
text is read as the operation `JUMP`, and as the operation `JUMPI` only a word of it with a dotless
letter. Of a word that names `JUMP`, with or without a target behind it, the jump to that target is
read, and of one that names `JUMPI` it is read exactly if there is no dotless letter in it. -/
theorem jump_words_take_targets (text : String) :
    Operation.parse text ≠ .ok (.op .JUMP) ∧
    (Operation.parse text = .ok (.op .JUMPI) ↔ ∃ w, Words text.toList [w] ∧
      Opcode.parse (String.ofList w) = .ok .JUMPI ∧ 'ı' ∈ w) ∧
    ∀ (w : List Char) (target : Option (List Char)), Words text.toList (w :: target.toList) →
      (Opcode.parse (String.ofList w) = .ok .JUMP →
        Operation.parse text = .ok (.jump (target.map String.ofList))) ∧
      (Opcode.parse (String.ofList w) = .ok .JUMPI →
        (Operation.parse text = .ok (.jumpi (target.map String.ofList)) ↔ 'ı' ∉ w)) := by
  simp only [Opcode.parse_eq_ok_iff, String.toList_ofList]
  refine ⟨?_, ?_, ?_⟩
  · intro hparse
    obtain ⟨ws, -, hreads⟩ := parse_eq_ok_iff.mp hparse
    exact not_reads_op_jump hreads
  · rw [parse_eq_ok_iff]
    simp only [reads_op_of_family? (o := .JUMPI) rfl]
    constructor
    · rintro ⟨_, hwords, w, rfl, hname, hdotless⟩
      exact ⟨w, hwords, hname, hdotless⟩
    · rintro ⟨w, hwords, hname, hdotless⟩
      exact ⟨[w], hwords, w, rfl, hname, hdotless⟩
  · intro w target hwords
    constructor
    · intro hname
      have hword := lower_of_names (o := .JUMP) rfl hname (not_dotless_of_names_jump hname)
      exact parse_of_reads hwords (.family hword .jump)
    · intro hname
      constructor
      · intro hparse hdotless
        rw [parse_of_dotless hname hdotless hwords] at hparse
        cases target <;> cases hparse
      · intro hdotless
        have hword := lower_of_names (o := .JUMPI) rfl hname hdotless
        exact parse_of_reads hwords (.family hword .jumpi)

theorem jump_words_take_targets_mixed :
    Words " JumpI\tend".toList ["JumpI".toList, "end".toList] ∧
    Opcode.parse "JumpI" = .ok .JUMPI ∧
    Operation.parse " JumpI\tend" = .ok (.jumpi (some "end")) := by
  have hwords : Words " JumpI\tend".toList ["JumpI".toList, "end".toList] :=
    words_eq_iff.mp (by decide)
  have hname : Opcode.parse "JumpI" = .ok .JUMPI := by decide
  obtain ⟨-, -, htarget⟩ := jump_words_take_targets " JumpI\tend"
  exact ⟨hwords, hname, ((htarget _ (some "end".toList) hwords).2 hname).mpr (by decide)⟩

/-- With a dotless letter the name of a jump takes no target. -/
theorem dotless_jump_word :
    Opcode.parse "jumpı" = .ok .JUMPI ∧ Operation.parse "jumpı" = .ok (.op .JUMPI) ∧
      Operation.parse "jumpı end" = .error (.tooManyArguments "end") := by
  decide

end Operation

end BytecodeAssembler
