import Mathlib.Data.List.Forall2
import BytecodeAssembler.Proofs.Shape
import BytecodeAssembler.Text.Line

/-!
# Where lines end

A text is closed if its last line is ended, and then it is its lines, each with a line feed behind
it (`exists_endLines`). So closed texts can be put together and taken apart between lines
(`lines_append`), and a carriage return in front of a line feed adds at most a blank character to
the end of a line (`Returned.lines`), which is nothing to a statement (`parse_append_blanks`).
-/

namespace BytecodeAssembler

namespace Text

/-! ### Closed texts -/

/-- Text that is empty or ends in a line feed. -/
def Closed (cs : List Char) : Prop :=
  cs = [] ∨ cs.getLast? = some '\n'

/-- Lines with a line feed behind each. -/
def endLines (ws : List (List Char)) : List Char :=
  ws.flatMap (· ++ ['\n'])

@[simp] theorem endLines_nil : endLines [] = [] := rfl

@[simp] theorem endLines_cons (w : List Char) (ws : List (List Char)) :
    endLines (w :: ws) = w ++ '\n' :: endLines ws := by
  simp [endLines]

theorem closed_endLines (ws : List (List Char)) : Closed (endLines ws) := by
  rcases List.eq_nil_or_concat ws with rfl | ⟨ws, w, rfl⟩
  · exact Or.inl rfl
  · refine Or.inr ?_
    simp [endLines, List.getLast?_append]

theorem exists_endLines {cs : List Char} (h : Closed cs) :
    ∃ ws, (∀ w ∈ ws, '\n' ∉ w) ∧ cs = endLines ws := by
  induction cs with
  | nil => exact ⟨[], by simp, rfl⟩
  | cons c cs ih =>
    have hrest : Closed cs := by
      rcases h with h | h
      · cases h
      · cases cs with
        | nil => exact Or.inl rfl
        | cons d cs => exact Or.inr (by simpa using h)
    obtain ⟨ws, hws, rfl⟩ := ih hrest
    by_cases hc : c = '\n'
    · subst hc
      exact ⟨[] :: ws, List.forall_mem_cons.mpr ⟨by simp, hws⟩, by simp⟩
    · -- the character is in front of the first line, and there is one because the text is closed
      cases ws with
      | nil =>
        rcases h with h | h
        · cases h
        · exact absurd (by simpa using h) hc
      | cons w ws =>
        obtain ⟨hw, hws⟩ := List.forall_mem_cons.mp hws
        refine ⟨(c :: w) :: ws, List.forall_mem_cons.mpr ⟨?_, hws⟩, by simp⟩
        simpa [hw] using Ne.symm hc

theorem Closed.append {cs ds : List Char} (hcs : Closed cs) (hds : Closed ds) :
    Closed (cs ++ ds) := by
  rcases hds with rfl | hds
  · rwa [List.append_nil]
  · exact Or.inr (by simp [List.getLast?_append, hds])

/-! ### Lines -/

theorem lines_line {w : List Char} (hw : '\n' ∉ w) (rest : List Char) :
    lines (w ++ '\n' :: rest) = dropReturn w :: lines rest := by
  have hsep : ∀ c ∈ w, (c == '\n') = false := by
    intro c hc
    rw [beq_eq_false_iff_ne]
    rintro rfl
    exact hw hc
  have hpieces := pieces_append hsep
    (@pieces_cons_of_separator (· == '\n') '\n' (beq_self_eq_true _) rest)
  rw [List.append_nil] at hpieces
  rw [lines, hpieces, lines]
  obtain ⟨p, ps, hrest⟩ := List.exists_cons_of_ne_nil (pieces_ne_nil (· == '\n') rest)
  rw [hrest]
  rfl

theorem lines_endLines_append {ws : List (List Char)} (h : ∀ w ∈ ws, '\n' ∉ w)
    (rest : List Char) : lines (endLines ws ++ rest) = ws.map dropReturn ++ lines rest := by
  induction ws with
  | nil => rfl
  | cons w ws ih =>
    obtain ⟨hw, hws⟩ := List.forall_mem_cons.mp h
    rw [endLines_cons, List.append_assoc, List.cons_append, lines_line hw, ih hws]
    rfl

theorem lines_endLines {ws : List (List Char)} (h : ∀ w ∈ ws, '\n' ∉ w) :
    lines (endLines ws) = ws.map dropReturn := by
  have hnil : lines [] = [] := rfl
  have happend := lines_endLines_append h []
  rwa [List.append_nil, hnil, List.append_nil] at happend

theorem lines_append {cs : List Char} (h : Closed cs) (rest : List Char) :
    lines (cs ++ rest) = lines cs ++ lines rest := by
  obtain ⟨ws, hws, rfl⟩ := exists_endLines h
  rw [lines_endLines_append hws, lines_endLines hws]

/-! ### Lines have no line feeds -/

theorem not_separator_of_mem_pieces {isSeparator : Char → Bool} {cs p : List Char}
    (h : p ∈ pieces isSeparator cs) : ∀ c ∈ p, isSeparator c = false := by
  induction cs generalizing p with
  | nil =>
    obtain rfl : p = [] := List.mem_singleton.mp h
    simp
  | cons c cs ih =>
    cases hc : isSeparator c with
    | true =>
      rw [pieces_cons_of_separator hc, List.mem_cons] at h
      rcases h with rfl | h
      · simp
      · exact ih h
    | false =>
      obtain ⟨first, rest, hrest⟩ := List.exists_cons_of_ne_nil (pieces_ne_nil isSeparator cs)
      have hcons : pieces isSeparator (c :: cs) = (c :: first) :: rest :=
        pieces_append (w := [c]) (by simpa using hc) hrest
      rw [hrest] at ih
      rw [hcons, List.mem_cons] at h
      rcases h with rfl | h
      · exact List.forall_mem_cons.mpr ⟨hc, ih List.mem_cons_self⟩
      · exact ih (List.mem_cons_of_mem _ h)

theorem dropReturn_subset (w : List Char) : dropReturn w ⊆ w := by
  rw [dropReturn]
  split
  · exact List.dropLast_subset w
  · exact List.Subset.refl w

theorem exists_piece_of_mem_linesOfPieces {w : List Char} {ps : List (List Char)}
    (h : w ∈ linesOfPieces ps) : ∃ p ∈ ps, w ⊆ p := by
  induction ps with
  | nil => cases h
  | cons p ps ih =>
    cases ps with
    | nil =>
      rw [linesOfPieces] at h
      split at h
      · cases h
      · obtain rfl := List.mem_singleton.mp h
        exact ⟨w, by simp, List.Subset.refl w⟩
    | cons q ps =>
      rcases List.mem_cons.mp h with rfl | h
      · exact ⟨p, by simp, dropReturn_subset p⟩
      · obtain ⟨r, hr, hsubset⟩ := ih h
        exact ⟨r, List.mem_cons_of_mem _ hr, hsubset⟩

theorem not_mem_of_mem_lines {cs w : List Char} (h : w ∈ lines cs) : '\n' ∉ w := by
  obtain ⟨p, hp, hsubset⟩ := exists_piece_of_mem_linesOfPieces h
  intro hmem
  exact absurd (not_separator_of_mem_pieces hp _ (hsubset hmem)) (by decide)

/-! ### Carriage returns -/

/-- Text that has a carriage return more in front of some of its line feeds. -/
inductive Returned : List Char → List Char → Prop
  | nil : Returned [] []
  | cons {cs ds : List Char} (c : Char) : Returned cs ds → Returned (c :: cs) (c :: ds)
  | feed {cs ds : List Char} : Returned cs ds → Returned ('\n' :: cs) ('\r' :: '\n' :: ds)

/-- Lines of which some have a carriage return more at their end. -/
def ReturnedLine (w w' : List Char) : Prop :=
  w' = w ∨ w' = w ++ ['\r']

namespace Returned

theorem refl (cs : List Char) : Returned cs cs := by
  induction cs with
  | nil => exact .nil
  | cons c cs ih => exact .cons c ih

theorem append {cs ds cs' ds' : List Char} (h : Returned cs ds) (h' : Returned cs' ds') :
    Returned (cs ++ cs') (ds ++ ds') := by
  induction h with
  | nil => exact h'
  | cons c _ ih => exact .cons c ih
  | feed _ ih => exact .feed ih

/-- The first line. -/
theorem exists_line {w rest ds : List Char} (hw : '\n' ∉ w) (h : Returned (w ++ '\n' :: rest) ds) :
    ∃ w' ds', ds = w' ++ '\n' :: ds' ∧ '\n' ∉ w' ∧ ReturnedLine w w' ∧ Returned rest ds' := by
  induction w generalizing ds with
  | nil =>
    cases h with
    | cons _ hrest => exact ⟨[], _, rfl, by simp, Or.inl rfl, hrest⟩
    | feed hrest => exact ⟨['\r'], _, rfl, by decide, Or.inr rfl, hrest⟩
  | cons c w ih =>
    obtain ⟨hc, hw⟩ := not_or.mp (mt List.mem_cons.mpr hw)
    cases h with
    | feed _ => exact absurd rfl hc
    | cons _ hrest =>
      obtain ⟨w', ds', rfl, hw', hline, hrest⟩ := ih hw hrest
      refine ⟨c :: w', ds', rfl, by simp [hc, hw'], ?_, hrest⟩
      rcases hline with rfl | rfl
      · exact Or.inl rfl
      · exact Or.inr rfl

theorem exists_endLines {ws : List (List Char)} {ds : List Char} (hws : ∀ w ∈ ws, '\n' ∉ w)
    (h : Returned (endLines ws) ds) :
    ∃ ws', ds = endLines ws' ∧ (∀ w ∈ ws', '\n' ∉ w) ∧ List.Forall₂ ReturnedLine ws ws' := by
  induction ws generalizing ds with
  | nil =>
    cases h
    exact ⟨[], rfl, by simp, .nil⟩
  | cons w ws ih =>
    obtain ⟨hw, hws⟩ := List.forall_mem_cons.mp hws
    rw [endLines_cons] at h
    obtain ⟨w', ds', rfl, hw', hline, hrest⟩ := h.exists_line hw
    obtain ⟨ws', rfl, hws', hlines⟩ := ih hws hrest
    exact ⟨w' :: ws', by simp, List.forall_mem_cons.mpr ⟨hw', hws'⟩, .cons hline hlines⟩

theorem closed {cs ds : List Char} (h : Returned cs ds) (hcs : Closed cs) : Closed ds := by
  obtain ⟨ws, hws, rfl⟩ := Text.exists_endLines hcs
  obtain ⟨ws', rfl, -, -⟩ := h.exists_endLines hws
  exact closed_endLines ws'

end Returned

theorem dropReturn_concat (w : List Char) : dropReturn (w ++ ['\r']) = w := by
  simp [dropReturn]

/-- A carriage return at the end of a line is dropped, once. -/
theorem returnedLine_dropReturn (w : List Char) : ReturnedLine (dropReturn w) w := by
  rw [dropReturn]
  split
  · next hlast => exact Or.inr (List.dropLast_append_getLast? '\r' hlast).symm
  · exact Or.inl rfl

theorem ReturnedLine.dropReturn {w w' : List Char} (h : ReturnedLine w w') :
    ReturnedLine (dropReturn w) (dropReturn w') := by
  rcases h with rfl | rfl
  · exact Or.inl rfl
  · rw [dropReturn_concat]
    exact returnedLine_dropReturn w

/-- **The lines of a closed text gain no more than a carriage return at their ends.** -/
theorem Returned.lines {cs ds : List Char} (h : Returned cs ds) (hcs : Closed cs) :
    List.Forall₂ ReturnedLine (lines cs) (lines ds) := by
  obtain ⟨ws, hws, rfl⟩ := Text.exists_endLines hcs
  obtain ⟨ws', rfl, hws', hlines⟩ := h.exists_endLines hws
  rw [lines_endLines hws, lines_endLines hws', List.forall₂_map_left_iff,
    List.forall₂_map_right_iff]
  exact hlines.imp fun _ _ => ReturnedLine.dropReturn

end Text

namespace Statement

open Text

/-! ### Blank characters at the end of a line -/

section Blanks

variable {gap : List Char} (hgap : Blanks gap)
include hgap

theorem restReads_append_blanks {cs : List Char} {r : Except Fault (Option Operation)}
    (h : RestReads cs r) : RestReads (cs ++ gap) r := by
  cases h with
  | blank hblanks => exact .blank (List.forall_mem_append.mpr ⟨hblanks, hgap⟩)
  | operation hwords hreads => exact .operation (hwords.append_blanks hgap) hreads

theorem ofBody_append_blanks (body : List Char) : ofBody (body ++ gap) = ofBody body := by
  rw [ofBody_eq_ofShape, ofBody_eq_ofShape, ← shape_surrounded (List.forall_mem_nil _) hgap body,
    List.nil_append]

/-- **Blank characters at the end of a line change nothing but its comment.** -/
theorem parse_append_blanks (line : List Char) :
    (parse (String.ofList (line ++ gap))).map Prod.fst =
      (parse (String.ofList line)).map Prod.fst := by
  have hsemicolon : ';' ∉ gap := hgap.not_mem rfl
  obtain ⟨body, comment?, hcut⟩ := exists_cut ';' line
  cases hcut with
  | whole hmem =>
    have hmem' : ';' ∉ line ++ gap := by simp [hmem, hsemicolon]
    simp only [parse, String.toList_ofList, cut_of_not_mem hmem, cut_of_not_mem hmem',
      ofBody_append_blanks hgap]
  | @split _ comment hmem =>
    rw [List.append_assoc, List.cons_append]
    simp only [parse, String.toList_ofList, cut_of_append hmem]
    cases ofBody body <;> rfl

end Blanks

theorem parse_returnedLine {w w' : List Char} (h : ReturnedLine w w') :
    (parse (String.ofList w')).map Prod.fst = (parse (String.ofList w)).map Prod.fst := by
  rcases h with rfl | rfl
  · rfl
  · exact parse_append_blanks (List.forall_mem_singleton.mpr rfl) w

end Statement

end BytecodeAssembler
