import BytecodeAssembler.Proofs.Grammar

/-!
# A line as words

What stands in front of a comment is read by its words alone, those in front of the first `:` and
those behind it:

* `Statement.shape body` — the words of a body on either side of its first `:`;
* `Statement.ofShape` — what such words are read as (`ofBody_eq_ofShape`): one word is a label, no
  word is no operation.

Blank space shows in the words of a text only as an end of words. How much of it stands between two
texts makes no difference (`words_append_gap_append`), and there may be more or less of it around a
text (`words_surrounded`). So it is for the shape of a body, at its ends, around the `:` and between
the words. A word with blank characters or nothing on both sides (`Apart`) is one of the words of
the text it stands in (`Apart.words_eq`).
-/

namespace BytecodeAssembler

namespace Text

/-! ### Words of text put together -/

theorem words_eq_nil_iff {cs : List Char} : words cs = [] ↔ Blanks cs := by
  rw [words_eq_iff]
  constructor
  · rintro ⟨hblanks⟩
    exact hblanks
  · exact .nil

/-- In front of a blank character a word is at its end. -/
theorem words_append {rest : List Char} (hrest : ∀ c ∈ rest.head?, isBlank c = true)
    (cs : List Char) : words (cs ++ rest) = words cs ++ words rest := by
  obtain ⟨ws, hws⟩ := exists_words cs
  rw [hws.words_eq]
  induction hws with
  | nil hgap => exact words_blanks hgap rest
  | @cons gap w tail ws hgap hw htail _ ih =>
    have hnext : ∀ c ∈ (tail ++ rest).head?, isBlank c = true := by
      cases tail with
      | nil => exact hrest
      | cons c tail => exact htail
    rw [List.append_assoc, List.append_assoc, words_blanks hgap, words_word hw hnext, ih]
    rfl

section Gap

variable {gap : List Char} (hgap : Blanks gap)
include hgap

theorem words_append_blanks (cs : List Char) : words (cs ++ gap) = words cs := by
  have hhead : ∀ c ∈ gap.head?, isBlank c = true := fun c hc => hgap c (List.mem_of_mem_head? hc)
  rw [words_append hhead, words_eq_nil_iff.mpr hgap, List.append_nil]

/-- Blank space between two texts keeps their words apart, however much there is of it. -/
theorem words_append_gap_append (hne : gap ≠ []) (front back : List Char) :
    words (front ++ gap ++ back) = words front ++ words back := by
  have hhead : ∀ c ∈ (gap ++ back).head?, isBlank c = true := by
    cases gap with
    | nil => exact absurd rfl hne
    | cons c gap =>
      intro d hd
      obtain rfl : c = d := by simpa using hd
      exact hgap c List.mem_cons_self
  rw [List.append_assoc, words_append hhead, words_blanks hgap]

end Gap

theorem words_surrounded {before after : List Char} (hbefore : Blanks before)
    (hafter : Blanks after) (cs : List Char) : words (before ++ cs ++ after) = words cs := by
  rw [words_append_blanks hafter, words_blanks hbefore]

/-- A word in a text, with a blank character or nothing on either side. -/
structure Apart (front w rest : List Char) : Prop where
  word : IsWord w
  before : ∀ c ∈ front.getLast?, isBlank c = true
  behind : ∀ c ∈ rest.head?, isBlank c = true

theorem Apart.words_eq {front w rest : List Char} (h : Apart front w rest) :
    words (front ++ w ++ rest) = words front ++ w :: words rest := by
  have hword := words_word h.word h.behind
  rcases List.eq_nil_or_concat front with rfl | ⟨front, c, rfl⟩
  · exact hword
  · have hc : Blanks [c] := List.forall_mem_singleton.mpr (h.before c (by simp))
    rw [List.concat_eq_append, List.append_assoc, words_append_gap_append hc (by simp), hword,
      words_append_blanks hc]

theorem encloses_iff_words_eq {cs w : List Char} : Encloses cs w ↔ words cs = [w] := by
  constructor
  · rintro ⟨hw, before, after, hbefore, hafter, rfl⟩
    rw [words_surrounded hbefore hafter]
    have hend : ∀ c ∈ ([] : List Char).head?, isBlank c = true := by simp
    have hword := words_word hw hend
    rwa [List.append_nil] at hword
  · intro h
    obtain _ | @⟨before, w, after, _, hbefore, hw, _, hafter⟩ := words_eq_iff.mp h
    obtain ⟨hafter⟩ := hafter
    exact ⟨hw, before, after, hbefore, hafter, rfl⟩

end Text

open Text

namespace Statement

/-! ### What words are read as -/

/-- Reads a label from the words in front of a `:`. -/
def labelOfWords : List (List Char) → Except Fault String
  | [name] => .ok (String.ofList name)
  | _ => .error .malformedLine

/-- Reads the operation of a line from its words, if there are any. -/
def operationOfWords : List (List Char) → Except Fault (Option Operation)
  | [] => .ok none
  | w :: arguments => (Operation.ofWords (w :: arguments)).map some

theorem readLabel_eq (head : List Char) : readLabel head = labelOfWords (words head) := by
  by_cases hname : ∃ name, Encloses head name
  · obtain ⟨name, hname⟩ := hname
    rw [readLabel_of_encloses hname, encloses_iff_words_eq.mp hname]
    rfl
  · rw [readLabel_of_not_encloses (not_exists.mp hname)]
    rcases hwords : words head with _ | ⟨name, _ | ⟨_, _⟩⟩
    · rfl
    · exact absurd ⟨name, encloses_iff_words_eq.mpr hwords⟩ hname
    · rfl

theorem readOperation_eq (cs : List Char) : readOperation cs = operationOfWords (words cs) := by
  obtain ⟨r, hr⟩ := exists_restReads cs
  rw [readOperation_of_restReads hr]
  cases hr with
  | blank hblanks =>
    rw [words_eq_nil_iff.mpr hblanks]
    rfl
  | @operation ws r hwords hreads =>
    rw [hwords.words_eq, ← Operation.ofWords_of_reads hreads]
    cases hreads <;> rfl

/-! ### Shapes -/

/-- The words of a body: those in front of its first `:`, if it has one, and the others. -/
def shape (body : List Char) : Option (List (List Char)) × List (List Char) :=
  match cut ':' body with
  | (text, none) => (none, words text)
  | (head, some tail) => (some (words head), words tail)

/-- Reads a statement from the words of a label, if there is one, and those of an operation. -/
def ofShape : Option (List (List Char)) × List (List Char) → Except Fault Statement
  | (none, ws) => (operationOfWords ws).map fun operation => ⟨none, operation⟩
  | (some label, ws) => do
    let name ← labelOfWords label
    (operationOfWords ws).map fun operation => ⟨some name, operation⟩

theorem shape_of_not_mem {cs : List Char} (h : ':' ∉ cs) : shape cs = (none, words cs) := by
  rw [shape, cut_of_not_mem h]

theorem shape_of_append {head : List Char} (h : ':' ∉ head) (tail : List Char) :
    shape (head ++ ':' :: tail) = (some (words head), words tail) := by
  rw [shape, cut_of_append h]

/-- **What stands in front of a comment is read by its words.** -/
theorem ofBody_eq_ofShape (body : List Char) : ofBody body = ofShape (shape body) := by
  obtain ⟨head, tail?, hcut⟩ := exists_cut ':' body
  cases hcut with
  | whole hmem =>
    rw [ofBody, cut_of_not_mem hmem, shape_of_not_mem hmem, ofShape, ← readOperation_eq]
    rfl
  | @split _ tail hmem =>
    rw [ofBody, cut_of_append hmem, shape_of_append hmem, ofShape, ← readLabel_eq,
      ← readOperation_eq]
    rfl

/-! ### Blank space in a body -/

theorem shape_surrounded {before after : List Char} (hbefore : Blanks before)
    (hafter : Blanks after) (body : List Char) :
    shape (before ++ body ++ after) = shape body := by
  have hfirst : ':' ∉ before := hbefore.not_mem rfl
  have hlast : ':' ∉ after := hafter.not_mem rfl
  obtain ⟨head, tail?, hcut⟩ := exists_cut ':' body
  cases hcut with
  | whole hmem =>
    rw [shape_of_not_mem hmem, shape_of_not_mem (by simp [hfirst, hmem, hlast]),
      words_surrounded hbefore hafter]
  | @split _ tail hmem =>
    have hassoc : before ++ (head ++ ':' :: tail) ++ after =
        (before ++ head) ++ ':' :: (tail ++ after) := by simp
    rw [hassoc, shape_of_append hmem, shape_of_append (by simp [hfirst, hmem]),
      words_blanks hbefore, words_append_blanks hafter]

theorem shape_append_gap_append {gap : List Char} (hgap : Blanks gap) (hne : gap ≠ [])
    {gap' : List Char} (hgap' : Blanks gap') (hne' : gap' ≠ []) (front back : List Char) :
    shape (front ++ gap ++ back) = shape (front ++ gap' ++ back) := by
  have hcolon : ':' ∉ gap := hgap.not_mem rfl
  have hcolon' : ':' ∉ gap' := hgap'.not_mem rfl
  have hwords : ∀ front back : List Char,
      words (front ++ gap ++ back) = words (front ++ gap' ++ back) := by
    intro front back
    rw [words_append_gap_append hgap hne, words_append_gap_append hgap' hne']
  -- the blank space is behind the first `:`, or in a body without one, or in front of it
  obtain ⟨head, tail?, hfront⟩ := exists_cut ':' front
  cases hfront with
  | @split _ tail hmem =>
    have hassoc : ∀ space, head ++ ':' :: tail ++ space ++ back =
        head ++ ':' :: (tail ++ space ++ back) := by simp
    rw [hassoc, hassoc, shape_of_append hmem, shape_of_append hmem, hwords]
  | whole hmem =>
    obtain ⟨head, tail?, hback⟩ := exists_cut ':' back
    cases hback with
    | whole hmem' =>
      rw [shape_of_not_mem (by simp [hmem, hcolon, hmem']),
        shape_of_not_mem (by simp [hmem, hcolon', hmem']), hwords]
    | @split _ tail hmem' =>
      have hassoc : ∀ space, front ++ space ++ (head ++ ':' :: tail) =
          (front ++ space ++ head) ++ ':' :: tail := by simp
      rw [hassoc, hassoc, shape_of_append (by simp [hmem, hcolon, hmem']),
        shape_of_append (by simp [hmem, hcolon', hmem']), hwords]

theorem shape_colon {head before after : List Char} (hmem : ':' ∉ head) (hbefore : Blanks before)
    (hafter : Blanks after) (tail : List Char) :
    shape (head ++ before ++ ':' :: (after ++ tail)) = shape (head ++ ':' :: tail) := by
  have hfirst : ':' ∉ before := hbefore.not_mem rfl
  rw [shape_of_append (by simp [hmem, hfirst]), shape_of_append hmem, words_append_blanks hbefore,
    words_blanks hafter]

end Statement

end BytecodeAssembler
