import BytecodeAssembler.Proofs.Grammar
import BytecodeAssembler.Proofs.Payload

/-!
# Printed instructions

The text of an instruction is a single name, or it starts with the heading of its kind (`heading`).
No name starts with one of the headings, so the text shows of which kind the instruction is
(`headingOf_text`). Within a kind, what follows the heading shows the rest: a number, or the
hexadecimal digits of all bytes behind a space. Hence no two instructions are printed alike
(`text_injective`), and since a sweep loses nothing, no two codes are (`texts_injective`).
-/

namespace BytecodeAssembler

open Text

theorem Text.decimal_injective : Function.Injective decimal := by
  intro n m h
  have hdigits : Nat.toDigits 10 n = Nat.toDigits 10 m := String.ofList_injective h
  have hback := Nat.ofDigitChars_ten_toDigits (n := n)
  rw [hdigits, Nat.ofDigitChars_ten_toDigits] at hback
  exact hback.symm

theorem Opcode.mnemonic_injective : Function.Injective mnemonic := by
  intro o o' h
  have hfound : ofMnemonic? o.mnemonic = some o := ofMnemonic?_eq_some_iff.mpr rfl
  rw [ofMnemonic?_eq_some_iff.mpr h.symm] at hfound
  exact (Option.some.inj hfound).symm

namespace Instr

/-! ### The kind of an instruction -/

/-- What the text of an instruction starts with, if it is not the name of an operation. -/
def heading : Instr → Option String
  | op _ => none
  | push _ => some "PUSH"
  | dup _ => some "DUP"
  | swap _ => some "SWAP"
  | data _ => some "DATA"

/-- The heading that a text starts with. -/
def headingOf (text : List Char) : Option String :=
  ["PUSH", "DUP", "SWAP", "DATA"].find? fun word => word.toList.isPrefixOf text

theorem headingOf_mnemonic (o : Opcode) : headingOf o.mnemonic.toList = none := by
  cases o <;> decide

theorem headingOf_text (i : Instr) : headingOf i.text.toList = i.heading := by
  cases i with
  | op o => exact headingOf_mnemonic o
  | push | dup | swap | data => simp [text, headingOf, heading]

/-! ### Instructions of one kind -/

/-- The digits of an immediate stand behind the only space of the text of a push. -/
theorem cut_text_push (immediate : List UInt8) :
    cut ' ' (push immediate).text.toList =
      ("PUSH".toList ++ (decimal immediate.length).toList,
        some ("0x".toList ++ Bytes.hexDigits immediate)) := by
  have hdigits : ' ' ∉ "PUSH".toList ++ (decimal immediate.length).toList := by
    intro hmem
    rcases List.mem_append.mp hmem with hword | hnumber
    · exact absurd hword (by decide)
    · rw [decimal, String.toList_ofList] at hnumber
      exact absurd (isDigit_of_mem_toDigits hnumber) (by decide)
  have htext : (push immediate).text.toList = "PUSH".toList ++ (decimal immediate.length).toList ++
      ' ' :: ("0x".toList ++ Bytes.hexDigits immediate) := by
    simp [text, Bytes.hexOf]
  rw [htext, cut_of_append hdigits]

theorem push_text_injective : Function.Injective fun immediate => (push immediate).text := by
  intro x y h
  have hcut := cut_text_push x
  rw [show (push x).text = (push y).text from h, cut_text_push y] at hcut
  have hdigits : Bytes.hexDigits y = Bytes.hexDigits x := by simpa using (Prod.mk.inj hcut).2
  exact (Bytes.hexOf_injective (congrArg String.ofList hdigits)).symm

theorem dup_text_injective : Function.Injective fun n => (dup n).text := by
  intro n m h
  have hnumber := decimal_injective (String.append_right_inj "DUP" |>.mp h)
  exact UInt8.toNat_inj.mp (Nat.succ.inj hnumber)

theorem swap_text_injective : Function.Injective fun n => (swap n).text := by
  intro n m h
  exact UInt8.toNat_inj.mp (decimal_injective (String.append_right_inj "SWAP" |>.mp h))

theorem data_text_injective : Function.Injective fun b => (data b).text := by
  intro b c h
  have hbytes := Bytes.hexOf_injective (String.append_right_inj "DATA 0x" |>.mp h)
  exact (List.cons.inj hbytes).1

/-! ### All instructions, and all code -/

/-- **No two instructions are printed alike.** -/
theorem text_injective : Function.Injective text := by
  intro i j h
  have hheading : i.heading = j.heading := by rw [← headingOf_text, h, headingOf_text]
  cases i <;> cases j
  case op.op o o' => rw [Opcode.mnemonic_injective h]
  case push.push x y => rw [push_text_injective h]
  case dup.dup n m => rw [dup_text_injective h]
  case swap.swap n m => rw [swap_text_injective h]
  case data.data b c => rw [data_text_injective h]
  all_goals simp [heading] at hheading

/-- The instructions of code as they are printed. -/
def texts (code : List UInt8) : List String :=
  ((sweep code).map Prod.snd).map text

theorem texts_injective : Function.Injective texts := by
  intro code code' h
  have hinstrs : (sweep code).map Prod.snd = (sweep code').map Prod.snd :=
    text_injective.list_map h
  rw [← flatten_sweep code, hinstrs, flatten_sweep]

/-- **The printed instructions determine the code.** Codes whose instructions are printed alike are
the same code. A push shows its immediate with its width and its leading zeros, and what is printed
like data is that data and no operation, push or member of a family. -/
theorem texts_determine_code :
    (∀ code code' : List UInt8, texts code = texts code' → code = code') ∧
    (∀ x y : List UInt8, (push x).text = (push y).text → x = y) ∧
    ∀ (b : UInt8) (i : Instr), i.text = (data b).text → i = data b :=
  ⟨fun _ _ h => texts_injective h, fun _ _ h => push_text_injective h,
    fun _ _ h => text_injective h⟩

/-- Pushes of one number in two widths, the second time cut off. -/
theorem texts_determine_code_widths :
    texts [0x60, 0x05, 0x61, 0x00, 0x05] = ["PUSH1 0x05", "PUSH2 0x0005"] ∧
      texts [0x60, 0x05, 0x61, 0x05] = ["PUSH1 0x05", "DATA 0x61", "SDIV"] ∧
      texts [0x60, 0x05, 0x61, 0x00, 0x05] ≠ texts [0x60, 0x05, 0x60, 0x05] ∧
      (push [0x00, 0x05]).text ≠ (push [0x05]).text ∧ (op .INVALID).text ≠ (data 0xFE).text := by
  obtain ⟨hcodes, hpushes, hdata⟩ := texts_determine_code
  refine ⟨by decide, by decide, fun h => ?_, fun h => ?_, fun h => ?_⟩
  · exact absurd (hcodes _ _ h) (by decide)
  · exact absurd (hpushes _ _ h) (by decide)
  · exact absurd (hdata _ _ h) (by decide)

end Instr

end BytecodeAssembler
