import Mathlib.Data.Nat.Digits.Defs
import BytecodeAssembler.Build

/-!
# Printed text, spelled out

Diagnostics and listings are styled text, put together from columns and looks. What is printed of
them is told here a second time, as text alone:

* `Diagnostic.paragraph` — the five lines of a diagnostic (`Diagnostic.printed_shown`);
* `Row.frontText` — what stands in front of the source column of a row (`Listing.printed_rowLine`);
* `Listing.text` — the loader, the rows of each file under its heading, and the line below them.
-/

namespace BytecodeAssembler

open Text

namespace Text

/-! ### Columns -/

theorem padLeft_ofList (width : Nat) (c : Char) (cs : List Char) :
    padLeft width c (.ofList cs) = .ofList (cs.leftpad width c) := by
  rw [padLeft, List.leftpad, String.ofList_append, String.length_ofList]

theorem padRight_eq (width : Nat) (s : String) :
    padRight width s = .ofList (s.toList.rightpad width ' ') := by
  rw [padRight, List.rightpad, String.ofList_append, String.ofList_toList, String.length_toList]

/-- The upper-case hexadecimal digit of a number below sixteen. -/
def upperDigit (n : Nat) : Char :=
  "0123456789ABCDEF".toList.getD n ' '

theorem toUpper_digitChar : ∀ n < 16, n.digitChar.toUpper = upperDigit n := by
  decide

theorem toUpper_hexDigit : ∀ n < 16, (Bytes.hexDigit n).toUpper = upperDigit n := by
  decide

theorem map_toUpper_toDigits {n : Nat} (h : n ≠ 0) :
    (Nat.toDigits 16 n).map Char.toUpper = (Nat.digits 16 n).reverse.map upperDigit := by
  induction n using Nat.strongRecOn with
  | ind n ih =>
    have hdigit := toUpper_digitChar (n % 16) (Nat.mod_lt n (by decide))
    rw [Nat.toDigits_eq_if (by decide), Nat.digits_def' (by decide) (Nat.pos_of_ne_zero h)]
    split
    · next hlt =>
      rw [Nat.mod_eq_of_lt hlt] at hdigit
      simp [Nat.div_eq_of_lt hlt, Nat.mod_eq_of_lt hlt, hdigit]
    · next hge =>
      have hdiv : n / 16 ≠ 0 := by omega
      rw [List.map_append, ih (n / 16) (by omega) hdiv]
      simp [hdigit]

/-- The number of a line, in four places at least. -/
def numberText (n : Nat) : String :=
  .ofList ((Nat.toDigits 10 n).leftpad 4 ' ')

/-- An offset in upper-case hexadecimal digits, four at least. -/
def offsetText (offset : Nat) : String :=
  .ofList (((Nat.digits 16 offset).reverse.map upperDigit).leftpad 4 '0')

/-- A byte in two upper-case hexadecimal digits. -/
def byteText (b : UInt8) : String :=
  .ofList [upperDigit (b.toNat / 16), upperDigit (b.toNat % 16)]

/-- The first five of some bytes, and two dots if there are more, in sixteen places. -/
def bytesText (bytes : List UInt8) : String :=
  .ofList ((String.intercalate " " ((bytes.take 5).map byteText) ++
    if 5 < bytes.length then ".." else "").toList.rightpad 16 ' ')

theorem decimal_eq (n : Nat) : decimal n = Nat.repr n := rfl

theorem padLeft_repr (n : Nat) : padLeft 4 ' ' (Nat.repr n) = numberText n :=
  padLeft_ofList 4 ' ' _

theorem hexUpper_eq (b : UInt8) : Bytes.hexUpper b = byteText b := by
  have hlt : b.toNat < 256 := b.toNat_lt
  have hhigh := toUpper_hexDigit (b.toNat / 16) (by omega)
  have hlow := toUpper_hexDigit (b.toNat % 16) (by omega)
  rw [Bytes.hexUpper, Bytes.hexPair, byteText, ← hhigh, ← hlow]
  rfl

theorem offsetColumn_eq (offset : Nat) : Listing.offsetColumn offset = offsetText offset := by
  rw [Listing.offsetColumn, upperHex, padLeft_ofList]
  by_cases h : offset = 0
  · subst h
    decide
  · rw [map_toUpper_toDigits h, offsetText]

theorem padRight_bytesColumn (bytes : List UInt8) :
    padRight 16 (Listing.bytesColumn bytes) = bytesText bytes := by
  rw [padRight_eq, Listing.bytesColumn, List.map_congr_left fun b _ => hexUpper_eq b]
  rfl

/-! ### Looks -/

namespace Styled

theorem switch_nil : switch {} [] = "" := by
  decide

/-- Text without a look of its own stands apart from what is before it and behind it. -/
theorem switch_append_text (look : Look) (parts rest : List (Look × String)) (s : String) :
    switch look (parts ++ ({}, s) :: rest) = switch look parts ++ s ++ switch {} rest := by
  induction parts generalizing look with
  | nil => rfl
  | cons part parts ih => simp only [List.cons_append, switch, ih, String.append_assoc]

theorem ansi_append_text_append (a b : Styled) (s : String) :
    (a ++ text s ++ b).ansi = a.ansi ++ s ++ b.ansi := by
  have hparts : (a ++ text s ++ b).parts = a.parts ++ ({}, s) :: b.parts := List.append_assoc _ _ _
  rw [ansi, hparts, switch_append_text, ← ansi, ← ansi]

theorem ansi_append_text (a : Styled) (s : String) : (a ++ text s).ansi = a.ansi ++ s := by
  have hparts : (a ++ text s).parts = a.parts ++ [(({} : Look), s)] := rfl
  rw [ansi, hparts, switch_append_text, switch_nil, String.append_empty, ← ansi]

theorem ansi_text_append (s : String) (b : Styled) : (text s ++ b).ansi = s ++ b.ansi := by
  have hparts : (text s ++ b).parts = [] ++ ({}, s) :: b.parts := rfl
  rw [ansi, hparts, switch_append_text, switch_nil, String.empty_append, ← ansi]

theorem ansi_text (s : String) : (text s).ansi = s := by
  have hparts : (text s).parts = [] ++ [(({} : Look), s)] := rfl
  rw [ansi, hparts, switch_append_text, switch_nil, String.empty_append, String.append_empty]

theorem ansi_paint (colour : Colour) (s : String) :
    (paint colour s).ansi = colourCode (some colour) ++ s ++ "\x1b[39m" := by
  simp [paint, ansi, parts, switch, Look.change, colourCode]

theorem ansi_underline (s : String) :
    (part { underline := true } (text s)).ansi = "\x1b[4m" ++ s ++ "\x1b[24m" := by
  simp [ansi, parts, switch, Look.change]

end Styled

end Text

@[simp] theorem printed_nil : printed [] = "" := rfl

@[simp] theorem printed_cons (line : Styled) (lines : List Styled) :
    printed (line :: lines) = line.ansi ++ "\n" ++ printed lines := by
  rw [printed, List.map_cons, String.join_cons, ← printed]

theorem printed_append (lines lines' : List Styled) :
    printed (lines ++ lines') = printed lines ++ printed lines' := by
  rw [printed, List.map_append, String.join_append, ← printed, ← printed]

theorem printed_flatMap {α : Type} (f : α → List Styled) (xs : List α) :
    printed (xs.flatMap f) = String.join (xs.map fun x => printed (f x)) := by
  induction xs with
  | nil => rfl
  | cons x xs ih => rw [List.flatMap_cons, printed_append, ih, List.map_cons, String.join_cons]

/-! ### Diagnostics -/

namespace Diagnostic

/-- The message, the place of a line, and the line between two bars. -/
def paragraph (message : String) (p : Position) : String :=
  "\x1b[31m\x1b[1merror\x1b[39m\x1b[22m: " ++ message ++ "\n" ++
  ("     \x1b[34m-->\x1b[39m \x1b[4m" ++ p.path ++ ":" ++ Nat.repr p.number ++ "\x1b[24m\n") ++
  "      \x1b[34m|\x1b[39m\n" ++
  (" \x1b[34m" ++ numberText p.number ++ " |\x1b[39m " ++ p.text ++ "\n") ++
  "      \x1b[34m|\x1b[39m\n"

theorem ansi_headline (message : String) :
    (headline message).ansi = "\x1b[31m\x1b[1merror\x1b[39m\x1b[22m: " ++ message := by
  have herror : Styled.ansi (.part { colour := some .red, bold := true } (.text "error")) =
      "\x1b[31m\x1b[1merror\x1b[39m\x1b[22m" := by decide
  have hlead : "\x1b[31m\x1b[1merror\x1b[39m\x1b[22m: " =
      "\x1b[31m\x1b[1merror\x1b[39m\x1b[22m" ++ ": " := by simp
  rw [headline, Styled.ansi_append_text, herror, hlead, String.append_assoc]

theorem ansi_place (place : String) :
    Styled.ansi (.text "     " ++ .paint .blue "-->" ++ .text " " ++
      .part { underline := true } (.text place)) =
    "     \x1b[34m-->\x1b[39m \x1b[4m" ++ place ++ "\x1b[24m" := by
  have hlead : "     \x1b[34m-->\x1b[39m \x1b[4m" =
      "     " ++ ("\x1b[34m" ++ "-->" ++ "\x1b[39m") ++ " " ++ "\x1b[4m" := by simp
  rw [Styled.ansi_append_text_append, Styled.ansi_text_append, Styled.ansi_paint,
    Styled.ansi_underline, colourCode, hlead, ← String.append_assoc, ← String.append_assoc]

theorem ansi_bar : Styled.ansi (.text "      " ++ .paint .blue "|") =
    "      \x1b[34m|\x1b[39m" := by
  decide

theorem ansi_numbered (number line : String) :
    Styled.ansi (.text " " ++ .paint .blue (number ++ " |") ++ .text (" " ++ line)) =
      " \x1b[34m" ++ number ++ " |\x1b[39m " ++ line := by
  have hlead : " \x1b[34m" = " " ++ "\x1b[34m" := by simp
  have hback : " |\x1b[39m " = " |" ++ "\x1b[39m" ++ " " := by simp
  rw [Styled.ansi_append_text, Styled.ansi_text_append, Styled.ansi_paint, hlead, hback]
  simp only [colourCode, String.append_assoc]

theorem printed_shown (d : Diagnostic) :
    printed d.shown = paragraph d.fault.message d.position := by
  have hplaceEnd : "\x1b[24m\n" = "\x1b[24m" ++ "\n" := by simp
  have hbarEnd : "      \x1b[34m|\x1b[39m\n" = "      \x1b[34m|\x1b[39m" ++ "\n" := by simp
  unfold paragraph
  simp only [shown, printed_cons, printed_nil, ansi_headline, ansi_place, ansi_bar, ansi_numbered,
    decimal_eq, padLeft_repr, hplaceEnd, hbarEnd, String.append_assoc, String.append_empty]

end Diagnostic

theorem printedDiagnostics_eq (ds : List Diagnostic) : printedDiagnostics ds =
    String.join (ds.map fun d => Diagnostic.paragraph d.fault.message d.position) := by
  rw [printedDiagnostics, printed_flatMap]
  exact congrArg String.join (List.map_congr_left fun d _ => d.printed_shown)

/-! ### Listings -/

/-- What stands in front of the source column of a row: the offset and the first bytes of its span,
or spaces if its statement is empty, and the number of its line. -/
def Row.frontText (code : Array UInt8) (row : Row) : String :=
  (if row.line.statement.isEmpty then "                       "
    else "[" ++ offsetText row.start ++ "] " ++
      bytesText (code.extract row.start row.stop).toList ++ " ") ++
  "| " ++ numberText row.line.position.number ++ ": "

namespace Listing

/-- The heading of a file. -/
def headingText (path : String) : String :=
  "-----------------------+------[" ++ path ++ "]" ++
    .ofList (List.replicate (45 - path.utf8ByteSize) '-') ++ "\n"

/-- The loader under its heading. -/
def loaderText (loader : List UInt8) : String :=
  "-----------------------+------[loader]-----------------------------------------\n" ++
  String.join ((Instr.sweep loader).map fun entry =>
    "[" ++ offsetText entry.1 ++ "] " ++ bytesText entry.2.toBytes ++ " |         " ++
      entry.2.listed.ansi ++ "\n")

/-- A listing: the loader if it is listed, the rows of each file under its heading, each as it is
told, and a line below. -/
def text (loader : Option (List UInt8)) (paths : List String) (rows : List Row)
    (told : Row → String) : String :=
  String.join (loader.toList.map loaderText) ++
  String.join (paths.map fun path => headingText path ++
    String.join ((rows.filter fun row => row.line.position.path = path).map told)) ++
  "-----------------------+-----------------------------------------------------\n"

theorem spanColumns_eq (offset : Nat) (bytes : List UInt8) :
    spanColumns offset bytes = "[" ++ offsetText offset ++ "] " ++ bytesText bytes := by
  rw [spanColumns, offsetColumn_eq, padRight_bytesColumn]

theorem printed_heading (path : String) :
    printed [.text (heading path)] = headingText path := by
  have hlead : "-----------------------+------[" = dashes 23 ++ "+------[" := by decide
  unfold headingText
  simp only [printed_cons, printed_nil, Styled.ansi_text, heading, hlead, dashes,
    String.append_empty]

theorem printed_rule : printed [.text rule] =
    "-----------------------+-----------------------------------------------------\n" := by
  decide

theorem printed_loaderLines (loader : List UInt8) :
    printed (loaderLines loader) = loaderText loader := by
  have hlead : "-----------------------+------[loader]-----------------------------------------\n" =
      dashes 23 ++ "+------[loader]" ++ dashes 41 ++ "\n" := by decide
  unfold loaderText
  rw [loaderLines, printed_cons, Styled.ansi_text, hlead, printed, List.map_map]
  refine congrArg _ (congrArg String.join (List.map_congr_left fun entry _ => ?_))
  rw [Function.comp_apply, loaderLine, Styled.ansi_text_append, spanColumns_eq]

theorem printed_lines (rows : List Row) (code : Array UInt8) (loader : Option (List UInt8)) :
    printed (lines rows code loader) =
      String.join (loader.toList.map loaderText) ++ printed (rowLines code "" rows) ++
        "-----------------------+-----------------------------------------------------\n" := by
  cases loader with
  | none =>
    rw [lines, printed_append, printed_append, printed_rule]
    rfl
  | some loader =>
    rw [lines, printed_append, printed_append, printed_rule, printed_loaderLines,
      Option.toList_some, List.map_singleton, String.join_cons, String.join_nil,
      String.append_empty]

/-- A row is printed as it is told, if its span is empty where its statement is. -/
theorem printed_rowLine {code : Array UInt8} {row : Row}
    (h : row.start < row.stop ↔ ¬ row.line.statement.isEmpty) :
    printed [rowLine code row] =
      row.frontText code ++ (row.line.statement.listed row.line.comment).ansi ++ "\n" := by
  have hfront : frontColumns code row ++ "| " ++ padLeft 4 ' ' (decimal row.line.position.number) ++
      ": " = row.frontText code := by
    unfold frontColumns Row.frontText
    rw [decimal_eq, padLeft_repr, spanColumns_eq]
    by_cases hempty : row.line.statement.isEmpty
    · rw [if_neg (mt h.mp (not_not.mpr hempty)), if_pos hempty]
      rfl
    · rw [if_pos (h.mpr hempty), if_neg hempty]
      rfl
  rw [printed_cons, printed_nil, String.append_empty, rowLine, Styled.ansi_text_append, hfront]

end Listing

end BytecodeAssembler
