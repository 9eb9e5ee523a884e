import Mathlib.Data.List.TakeWhile
import BytecodeAssembler.Text.Blank

/-!
# Text taken apart, seen from the parts

The functions that take text apart, described by how the parts make up the text:

* `Cut separator cs before after` — `cs` is `before`, and `after` behind a separator if it has one;
* `Words cs ws` — `cs` is the words `ws` with blank characters around and between them;
* `Encloses cs w` — `cs` is the one word `w` with or without blank characters around it.

Each text has just one such description, which is what `cut`, `words` and `trim` find
(`cut_eq_iff`, `words_eq_iff`, `encloses_iff`).
-/

namespace BytecodeAssembler.Text

/-! ### The first separator -/

/-- Text before the first separator, and behind it if there is one. -/
inductive Cut (separator : Char) : List Char → List Char → Option (List Char) → Prop
  | whole {cs : List Char} : separator ∉ cs → Cut separator cs cs none
  | split {before after : List Char} : separator ∉ before →
      Cut separator (before ++ separator :: after) before (some after)

theorem ne_of_not_mem {separator : Char} {cs : List Char} (h : separator ∉ cs) :
    ∀ c ∈ cs, decide (c ≠ separator) = true := by
  intro c hc
  rw [decide_eq_true_iff]
  rintro rfl
  exact h hc

theorem cut_of_not_mem {separator : Char} {cs : List Char} (h : separator ∉ cs) :
    cut separator cs = (cs, none) := by
  rw [cut, List.takeWhile_eq_self_iff.mpr (ne_of_not_mem h),
    List.dropWhile_eq_nil_iff.mpr (ne_of_not_mem h)]

theorem cut_of_append {separator : Char} {before : List Char} (h : separator ∉ before)
    (after : List Char) : cut separator (before ++ separator :: after) = (before, some after) := by
  rw [cut, List.takeWhile_append_of_pos (ne_of_not_mem h),
    List.dropWhile_append_of_pos (ne_of_not_mem h)]
  simp

theorem exists_cut (separator : Char) (cs : List Char) :
    ∃ before after, Cut separator cs before after := by
  induction cs with
  | nil => exact ⟨[], none, .whole (by simp)⟩
  | cons c cs ih =>
    by_cases hc : separator = c
    · subst hc
      exact ⟨[], some cs, @Cut.split separator [] cs (by simp)⟩
    · obtain ⟨before, after, hcut⟩ := ih
      cases hcut with
      | whole h => exact ⟨c :: cs, none, .whole (by simp [hc, h])⟩
      | @split before after h =>
        exact ⟨c :: before, some after, @Cut.split separator (c :: before) after (by simp [hc, h])⟩

theorem cut_of_cut {separator : Char} {cs before : List Char} {after : Option (List Char)}
    (h : Cut separator cs before after) : cut separator cs = (before, after) := by
  cases h with
  | whole hmem => exact cut_of_not_mem hmem
  | split hmem => exact cut_of_append hmem _

theorem cut_eq_iff {separator : Char} {cs before : List Char} {after : Option (List Char)} :
    cut separator cs = (before, after) ↔ Cut separator cs before after := by
  constructor
  · intro h
    obtain ⟨before', after', hcut⟩ := exists_cut separator cs
    obtain ⟨rfl, rfl⟩ := Prod.mk.inj ((cut_of_cut hcut).symm.trans h)
    exact hcut
  · exact cut_of_cut

theorem Cut.not_mem {separator : Char} {cs before : List Char} {after : Option (List Char)}
    (h : Cut separator cs before after) : separator ∉ before := by
  cases h with
  | whole hmem => exact hmem
  | split hmem => exact hmem

theorem Cut.before_subset {separator : Char} {cs before : List Char} {after : Option (List Char)}
    (h : Cut separator cs before after) : before ⊆ cs := by
  cases h with
  | whole => exact List.Subset.refl _
  | split => exact List.subset_append_left _ _

theorem Cut.after_subset {separator : Char} {cs before after : List Char}
    (h : Cut separator cs before (some after)) : after ⊆ cs := by
  cases h with
  | split => exact fun c hc => List.mem_append_right _ (List.mem_cons_of_mem _ hc)

/-! ### Words -/

/-- Blank characters only. -/
def Blanks (cs : List Char) : Prop :=
  ∀ c ∈ cs, isBlank c = true

theorem Blanks.not_mem {gap : List Char} (h : Blanks gap) {c : Char} (hc : isBlank c = false) :
    c ∉ gap := by
  intro hmem
  rw [h c hmem] at hc
  cases hc

/-- A word: at least one character, and no blank one. -/
def IsWord (w : List Char) : Prop :=
  w ≠ [] ∧ ∀ c ∈ w, isBlank c = false

/-- Text that is words with blank characters around and between them. -/
inductive Words : List Char → List (List Char) → Prop
  | nil {gap : List Char} : Blanks gap → Words gap []
  | cons {gap w rest : List Char} {ws : List (List Char)} : Blanks gap → IsWord w →
      (∀ c ∈ rest.head?, isBlank c = true) → Words rest ws → Words (gap ++ w ++ rest) (w :: ws)

/-- A word with or without blank characters around it. -/
def Encloses (cs w : List Char) : Prop :=
  IsWord w ∧ ∃ before after, Blanks before ∧ Blanks after ∧ cs = before ++ w ++ after

/-! ### Pieces become words -/

theorem pieces_cons_of_separator {isSeparator : Char → Bool} {c : Char}
    (hc : isSeparator c = true) (cs : List Char) :
    pieces isSeparator (c :: cs) = [] :: pieces isSeparator cs := by
  rw [pieces, List.foldr_cons, ← pieces]
  exact if_pos hc

/-- The piece in front of a text grows by characters that are no separators. -/
theorem pieces_append {isSeparator : Char → Bool} {w : List Char}
    (h : ∀ c ∈ w, isSeparator c = false) {cs p : List Char} {ps : List (List Char)}
    (hcs : pieces isSeparator cs = p :: ps) : pieces isSeparator (w ++ cs) = (w ++ p) :: ps := by
  induction w with
  | nil => exact hcs
  | cons c w ih =>
    have hc : ¬ isSeparator c = true := by simp [h c List.mem_cons_self]
    have hrest := ih fun d hd => h d (List.mem_cons_of_mem _ hd)
    rw [List.cons_append, pieces, List.foldr_cons, ← pieces, hrest]
    exact if_neg hc

theorem words_cons_blank {c : Char} (hc : isBlank c = true) (cs : List Char) :
    words (c :: cs) = words cs := by
  rw [words, pieces_cons_of_separator hc, words]
  simp

theorem words_blanks {gap : List Char} (h : Blanks gap) (cs : List Char) :
    words (gap ++ cs) = words cs := by
  induction gap with
  | nil => rfl
  | cons c gap ih =>
    rw [List.cons_append, words_cons_blank (h c List.mem_cons_self)]
    exact ih fun d hd => h d (List.mem_cons_of_mem _ hd)

theorem words_word {w : List Char} (hw : IsWord w) {rest : List Char}
    (hrest : ∀ c ∈ rest.head?, isBlank c = true) : words (w ++ rest) = w :: words rest := by
  have hpieces : ∃ ps, pieces isBlank rest = [] :: ps ∧ ps.filter (· ≠ []) = words rest := by
    cases rest with
    | nil => exact ⟨[], rfl, rfl⟩
    | cons c rest =>
      have hc : isBlank c = true := hrest c rfl
      exact ⟨pieces isBlank rest, pieces_cons_of_separator hc rest, (words_cons_blank hc rest).symm⟩
  obtain ⟨ps, hpieces, hwords⟩ := hpieces
  have hne : decide (w ≠ []) = true := by simpa using hw.1
  rw [words, pieces_append hw.2 hpieces, List.append_nil, List.filter_cons, if_pos hne, hwords]

namespace Words

theorem words_eq {cs : List Char} {ws : List (List Char)} (h : Words cs ws) : words cs = ws := by
  induction h with
  | @nil gap hgap =>
    have h := words_blanks hgap []
    rwa [List.append_nil] at h
  | cons hgap hw hrest _ ih =>
    rw [List.append_assoc, words_blanks hgap, words_word hw hrest, ih]

theorem cons_blank {c : Char} (hc : isBlank c = true) {cs : List Char} {ws : List (List Char)}
    (h : Words cs ws) : Words (c :: cs) ws := by
  have hcons : ∀ gap, Blanks gap → Blanks (c :: gap) := fun gap hgap =>
    List.forall_mem_cons.mpr ⟨hc, hgap⟩
  cases h with
  | nil hgap => exact .nil (hcons _ hgap)
  | @cons gap w rest ws hgap hw hrest hwords =>
    exact @Words.cons (c :: gap) w rest ws (hcons _ hgap) hw hrest hwords

theorem append_blanks {cs gap : List Char} {ws : List (List Char)} (h : Words cs ws)
    (hgap : Blanks gap) : Words (cs ++ gap) ws := by
  induction h with
  | nil hfirst => exact .nil (List.forall_mem_append.mpr ⟨hfirst, hgap⟩)
  | @cons first w rest ws hfirst hw hrest hwords ih =>
    rw [List.append_assoc]
    refine .cons hfirst hw ?_ ih
    cases rest with
    | nil => exact fun c hc => hgap c (List.mem_of_mem_head? hc)
    | cons c rest => exact hrest

theorem isWord {cs : List Char} {ws : List (List Char)} (h : Words cs ws) :
    ∀ w ∈ ws, IsWord w := by
  induction h with
  | nil => simp
  | cons _ hw _ _ ih => exact List.forall_mem_cons.mpr ⟨hw, ih⟩

/-- The characters of a text that are not blank are those of its words. -/
theorem mem_iff {cs : List Char} {ws : List (List Char)} (h : Words cs ws) {c : Char}
    (hc : isBlank c = false) : c ∈ cs ↔ ∃ w ∈ ws, c ∈ w := by
  induction h with
  | nil hgap => simp [hgap.not_mem hc]
  | cons hgap _ _ _ ih => simp [hgap.not_mem hc, ih]

end Words

theorem exists_words (cs : List Char) : ∃ ws, Words cs ws := by
  induction cs with
  | nil => exact ⟨[], .nil (by simp [Blanks])⟩
  | cons c cs ih =>
    obtain ⟨ws, hws⟩ := ih
    by_cases hc : isBlank c = true
    · exact ⟨ws, hws.cons_blank hc⟩
    · have hc : isBlank c = false := by simpa using hc
      by_cases hhead : ∀ d ∈ cs.head?, isBlank d = true
      · have hword : IsWord [c] := ⟨by simp, by simpa using hc⟩
        exact ⟨[c] :: ws, @Words.cons [] [c] cs ws (by simp [Blanks]) hword hhead hws⟩
      · -- the text goes on with a word, which grows by `c`
        cases hws with
        | nil hgap => exact absurd (fun d hd => hgap d (List.mem_of_mem_head? hd)) hhead
        | @cons gap w rest ws hgap hw hrest hwords =>
          cases gap with
          | nil =>
            have hword : IsWord (c :: w) := ⟨by simp, List.forall_mem_cons.mpr ⟨hc, hw.2⟩⟩
            exact ⟨(c :: w) :: ws, @Words.cons [] (c :: w) rest ws hgap hword hrest hwords⟩
          | cons g gap =>
            refine absurd ?_ hhead
            intro d hd
            obtain rfl : g = d := by simpa using hd
            exact hgap g List.mem_cons_self

theorem words_eq_iff {cs : List Char} {ws : List (List Char)} : words cs = ws ↔ Words cs ws := by
  constructor
  · rintro rfl
    obtain ⟨ws, hws⟩ := exists_words cs
    rwa [hws.words_eq]
  · exact Words.words_eq

/-! ### Trimmed text -/

theorem exists_trim (cs : List Char) :
    ∃ before after, Blanks before ∧ Blanks after ∧ cs = before ++ trim cs ++ after := by
  have hblanks : ∀ ds : List Char, Blanks (ds.takeWhile isBlank) := fun ds c hc =>
    List.mem_takeWhile_imp hc
  refine ⟨cs.takeWhile isBlank, ((trimStart cs).reverse.takeWhile isBlank).reverse, hblanks cs,
    ?_, ?_⟩
  · intro c hc
    exact hblanks _ c (List.mem_reverse.mp hc)
  · have hend : trim cs ++ ((trimStart cs).reverse.takeWhile isBlank).reverse = trimStart cs := by
      rw [trim, trimEnd, ← List.reverse_append, List.takeWhile_append_dropWhile,
        List.reverse_reverse]
    rw [List.append_assoc, hend, trimStart, List.takeWhile_append_dropWhile]

theorem trim_eq_nil_iff {cs : List Char} : trim cs = [] ↔ Blanks cs := by
  constructor
  · intro h
    obtain ⟨before, after, hbefore, hafter, heq⟩ := exists_trim cs
    rw [heq, h, List.append_nil]
    exact List.forall_mem_append.mpr ⟨hbefore, hafter⟩
  · intro h
    have hstart : trimStart cs = [] := List.dropWhile_eq_nil_iff.mpr h
    rw [trim, hstart]
    rfl

theorem words_trim (cs : List Char) : words (trim cs) = words cs := by
  obtain ⟨before, after, hbefore, hafter, heq⟩ := exists_trim cs
  obtain ⟨ws, hws⟩ := exists_words (trim cs)
  have hcs := (hws.append_blanks hafter).words_eq
  rw [hws.words_eq, heq, List.append_assoc, words_blanks hbefore, hcs]

theorem mem_trim_iff {c : Char} (hc : isBlank c = false) {cs : List Char} :
    c ∈ trim cs ↔ c ∈ cs := by
  obtain ⟨before, after, hbefore, hafter, heq⟩ := exists_trim cs
  have hmem : c ∈ before ++ trim cs ++ after ↔ c ∈ trim cs := by
    simp [hbefore.not_mem hc, hafter.not_mem hc]
  rw [← heq] at hmem
  exact hmem.symm

theorem dropWhile_isBlank_word {gap w : List Char} (hgap : Blanks gap) (hw : IsWord w)
    (rest : List Char) : (gap ++ (w ++ rest)).dropWhile isBlank = w ++ rest := by
  obtain ⟨hne, hall⟩ := hw
  rw [List.dropWhile_append_of_pos hgap]
  cases w with
  | nil => exact absurd rfl hne
  | cons c w => simp [hall c List.mem_cons_self]

theorem encloses_iff {cs w : List Char} : Encloses cs w ↔ IsWord w ∧ trim cs = w := by
  refine and_congr_right fun hw => ?_
  constructor
  · rintro ⟨before, after, hbefore, hafter, rfl⟩
    have hblanks : Blanks after.reverse := fun c hc => hafter c (List.mem_reverse.mp hc)
    have hword : IsWord w.reverse :=
      ⟨by simpa using hw.1, fun c hc => hw.2 c (List.mem_reverse.mp hc)⟩
    have hend := dropWhile_isBlank_word hblanks hword []
    rw [List.append_nil] at hend
    rw [List.append_assoc, trim, trimStart, dropWhile_isBlank_word hbefore hw, trimEnd,
      List.reverse_append, hend, List.reverse_reverse]
  · rintro rfl
    exact exists_trim cs

theorem Encloses.subset {cs w : List Char} (h : Encloses cs w) : w ⊆ cs := by
  obtain ⟨-, before, after, -, -, rfl⟩ := h
  exact fun c hc => List.mem_append_left _ (List.mem_append_right _ hc)

end BytecodeAssembler.Text
