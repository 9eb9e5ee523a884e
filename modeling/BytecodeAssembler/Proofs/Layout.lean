import Mathlib.Logic.Relation
import BytecodeAssembler.Proofs.Journal
import BytecodeAssembler.Proofs.Letters
import BytecodeAssembler.Proofs.Pipeline
import BytecodeAssembler.Proofs.Shape

/-!
# Layout, comments and letter case

Two lines that differ only in what a reader would not see as a difference:

* `BodyChange` — blank space in front of a comment is added, or a stretch of it is replaced by
  another, or an operation word or the operand of a push is written in other letter case;
* `LineChange` — such a change of what stands in front of the comment, or another comment, or none.

A body keeps its shape if its blank space is changed. If a word is written in other letter case,
this word alone is another one in the shape, and the words are still read alike
(`Operation.ofWords_word_sameLetters`, `Operation.ofWords_literal_sameLetters`). So any number of
changes leaves a line the statement that it was, or a fault of the same kind.

A line with a label is also two lines, the label with its `:` and the rest
(`parsed_of_parse_append`).
-/

namespace BytecodeAssembler

open Text

namespace Statement

/-! ### Changes -/

/-- The operation of a body stands behind the first `:`, or else the body is nothing but it. -/
inductive Leads : List Char → List Char → Prop
  | unlabelled {cs : List Char} : ':' ∉ cs → Leads [] cs
  | labelled {head : List Char} (cs : List Char) : ':' ∉ head → Leads (head ++ [':']) cs

/-- A change in front of the comment that is one of layout or of letter case. -/
inductive BodyChange : List Char → List Char → Prop
  /-- More blank space at the ends. -/
  | ends {before after : List Char} (body : List Char) : Blanks before → Blanks after →
      BodyChange body (before ++ body ++ after)
  /-- More blank space around the first `:`. -/
  | colon {head before after : List Char} (tail : List Char) : ':' ∉ head → Blanks before →
      Blanks after → BodyChange (head ++ ':' :: tail) (head ++ before ++ ':' :: (after ++ tail))
  /-- Other blank space in the place of some. -/
  | gap {gap gap' : List Char} (front back : List Char) : Blanks gap → gap ≠ [] → Blanks gap' →
      gap' ≠ [] → BodyChange (front ++ gap ++ back) (front ++ gap' ++ back)
  /-- Other letter case in the operation word. -/
  | word {lead front w w' rest : List Char} : Leads lead (front ++ w ++ rest) →
      Apart front w rest → words front = [] → SameLetters w w' →
      BodyChange (lead ++ (front ++ w ++ rest)) (lead ++ (front ++ w' ++ rest))
  /-- Other letter case in the operand of a push. -/
  | operand {lead front w a a' rest : List Char} : Leads lead (front ++ a ++ rest) →
      Apart front a rest → words front = [w] → Family.ofWord? w = some .push → SameLetters a a' →
      BodyChange (lead ++ (front ++ a ++ rest)) (lead ++ (front ++ a' ++ rest))

/-- Nothing, or a comment with its `;`. -/
def Remark (cs : List Char) : Prop :=
  ∀ c ∈ cs.head?, c = ';'

/-- A change of the comment, or of what stands in front of it. -/
inductive LineChange : List Char → List Char → Prop
  | remark {body text text' : List Char} : ';' ∉ body → Remark text → Remark text' →
      LineChange (body ++ text) (body ++ text')
  | body {body body' text : List Char} : ';' ∉ body → Remark text → BodyChange body body' →
      LineChange (body ++ text) (body' ++ text)

/-! ### Bodies -/

/-- Wherever the operation stands, its words are one half of the shape. -/
theorem Leads.exists_shape {lead cs : List Char} (h : Leads lead cs) :
    ∃ label?, ∀ cs', (':' ∈ cs' → ':' ∈ cs) → shape (lead ++ cs') = (label?, words cs') := by
  cases h with
  | unlabelled hmem => exact ⟨none, fun cs' hcs' => shape_of_not_mem (mt hcs' hmem)⟩
  | @labelled head _ hmem =>
    refine ⟨some (words head), fun cs' _ => ?_⟩
    rw [List.append_assoc]
    exact shape_of_append hmem cs'

/-- Words that are read alike behind a label are read alike with it. -/
theorem byKind_ofShape {ws ws' : List (List Char)}
    (h : Fault.byKind (operationOfWords ws) = Fault.byKind (operationOfWords ws'))
    (label? : Option (List (List Char))) :
    Fault.byKind (ofShape (label?, ws)) = Fault.byKind (ofShape (label?, ws')) := by
  cases label? with
  | none => rw [ofShape, ofShape, Fault.byKind_map, Fault.byKind_map, h]
  | some label =>
    rw [ofShape, ofShape]
    cases labelOfWords label with
    | error fault => rfl
    | ok name =>
      change Fault.byKind ((operationOfWords ws).map _) =
        Fault.byKind ((operationOfWords ws').map _)
      rw [Fault.byKind_map, Fault.byKind_map, h]

/-- A word of the operation may be written in other letter case if the words may be. -/
theorem Leads.byKind_sameLetters {lead front w w' rest : List Char}
    (h : Leads lead (front ++ w ++ rest)) (hapart : Apart front w rest) (hsame : SameLetters w w')
    (hread : Fault.byKind (operationOfWords (words front ++ w :: words rest)) =
      Fault.byKind (operationOfWords (words front ++ w' :: words rest))) :
    Fault.byKind (ofBody (lead ++ (front ++ w ++ rest))) =
      Fault.byKind (ofBody (lead ++ (front ++ w' ++ rest))) := by
  obtain ⟨label?, hshape⟩ := h.exists_shape
  have hapart' : Apart front w' rest := ⟨hsame.isWord hapart.word, hapart.before, hapart.behind⟩
  have hcolon : ':' ∈ front ++ w' ++ rest → ':' ∈ front ++ w ++ rest := by
    simp only [List.mem_append, hsame.mem_iff (d := ':') rfl, imp_self]
  rw [ofBody_eq_ofShape, ofBody_eq_ofShape, hshape _ id, hshape _ hcolon, hapart.words_eq,
    hapart'.words_eq]
  exact byKind_ofShape hread label?

namespace BodyChange

variable {body body' : List Char}

/-- No change brings a `;` into a body. -/
theorem not_mem (h : BodyChange body body') (hbody : ';' ∉ body) : ';' ∉ body' := by
  have hblank : ∀ {gap : List Char}, Blanks gap → ';' ∉ gap := fun hgap => hgap.not_mem rfl
  cases h with
  | ends _ hbefore hafter => simp [hblank hbefore, hblank hafter, hbody]
  | colon _ _ hbefore hafter =>
    simp only [List.mem_append, List.mem_cons, not_or] at hbody ⊢
    exact ⟨⟨hbody.1, hblank hbefore⟩, hbody.2.1, hblank hafter, hbody.2.2⟩
  | gap _ _ _ _ hgap' _ =>
    simp only [List.mem_append, not_or] at hbody ⊢
    exact ⟨⟨hbody.1.1, hblank hgap'⟩, hbody.2⟩
  | word _ _ _ hsame | operand _ _ _ _ hsame =>
    simpa only [List.mem_append, hsame.mem_iff (d := ';') rfl] using hbody

/-- **A body may be laid out otherwise and written in other letter case.** -/
theorem byKind_eq (h : BodyChange body body') :
    Fault.byKind (ofBody body) = Fault.byKind (ofBody body') := by
  cases h with
  | ends _ hbefore hafter =>
    rw [ofBody_eq_ofShape, ofBody_eq_ofShape, shape_surrounded hbefore hafter]
  | colon tail hmem hbefore hafter =>
    rw [ofBody_eq_ofShape, ofBody_eq_ofShape, shape_colon hmem hbefore hafter]
  | gap front back hgap hne hgap' hne' =>
    rw [ofBody_eq_ofShape, ofBody_eq_ofShape, shape_append_gap_append hgap hne hgap' hne']
  | word hlead hapart hfront hsame =>
    refine hlead.byKind_sameLetters hapart hsame ?_
    rw [hfront]
    simp only [List.nil_append, operationOfWords, Fault.byKind_map,
      Operation.ofWords_word_sameLetters hsame]
  | operand hlead hapart hfront hpush hsame =>
    refine hlead.byKind_sameLetters hapart hsame ?_
    rw [hfront]
    simp only [List.cons_append, List.nil_append, operationOfWords, Fault.byKind_map,
      Operation.ofWords_literal_sameLetters hpush hsame]

end BodyChange

/-! ### Lines -/

theorem exists_remark (line : List Char) :
    ∃ body text, ';' ∉ body ∧ Remark text ∧ line = body ++ text := by
  obtain ⟨body, comment?, hcut⟩ := exists_cut ';' line
  cases hcut with
  | whole hmem => exact ⟨line, [], hmem, by simp [Remark], by simp⟩
  | @split _ comment hmem => exact ⟨body, ';' :: comment, hmem, by simp [Remark], rfl⟩

/-- The statement of a line is that of what stands in front of its comment. -/
theorem parse_append_remark {body text : List Char} (hbody : ';' ∉ body) (htext : Remark text) :
    (parse (String.ofList (body ++ text))).map Prod.fst = ofBody body := by
  have hcut : ∃ comment, cut ';' (body ++ text) = (body, comment) := by
    cases text with
    | nil =>
      rw [List.append_nil]
      exact ⟨none, cut_of_not_mem hbody⟩
    | cons c comment =>
      obtain rfl : c = ';' := htext c rfl
      exact ⟨some comment, cut_of_append hbody comment⟩
  obtain ⟨comment, hcut⟩ := hcut
  simp only [parse, String.toList_ofList, hcut]
  cases ofBody body <;> rfl

/-- **A line may be changed in layout, comment and letter case**, once or any number of times. -/
theorem LineChange.byKind_eq {line line' : List Char} (h : LineChange line line') :
    Fault.byKind ((parse (String.ofList line)).map Prod.fst) =
      Fault.byKind ((parse (String.ofList line')).map Prod.fst) := by
  cases h with
  | remark hbody htext htext' =>
    rw [parse_append_remark hbody htext, parse_append_remark hbody htext']
  | body hbody htext hchange =>
    rw [parse_append_remark hbody htext, parse_append_remark (hchange.not_mem hbody) htext,
      hchange.byKind_eq]

theorem byKind_eq_of_eqvGen {line line' : List Char} (h : Relation.EqvGen LineChange line line') :
    Fault.byKind ((parse (String.ofList line)).map Prod.fst) =
      Fault.byKind ((parse (String.ofList line')).map Prod.fst) := by
  induction h with
  | rel _ _ h => exact h.byKind_eq
  | refl => rfl
  | symm _ _ _ ih => exact ih.symm
  | trans _ _ _ _ _ ih ih' => exact ih.trans ih'

/-! ### A label on a line of its own -/

theorem ofShape_eq_ok {label ws : List (List Char)} {st : Statement}
    (h : ofShape (some label, ws) = .ok st) : ∃ name operation, labelOfWords label = .ok name ∧
      operationOfWords ws = .ok operation ∧ st = ⟨some name, operation⟩ := by
  rw [ofShape] at h
  cases hlabel : labelOfWords label with
  | error fault =>
    rw [hlabel] at h
    cases h
  | ok name =>
    cases hoperation : operationOfWords ws with
    | error fault =>
      rw [hlabel, hoperation] at h
      cases h
    | ok operation =>
      rw [hlabel, hoperation] at h
      exact ⟨name, operation, rfl, rfl, (Except.ok.inj h).symm⟩

/-- No operation word has a `:` in it, so a word that has one is an argument, and the last word. -/
theorem eq_nil_of_operationOfWords {w : List Char} {ws more : List (List Char)} (hw : w ∈ ws)
    (hcolon : ':' ∈ w) {operation : Option Operation}
    (h : operationOfWords (ws ++ more) = .ok operation) : more = [] := by
  obtain ⟨first, ws, rfl⟩ := List.exists_cons_of_ne_nil (List.ne_nil_of_mem hw)
  obtain ⟨r, hreads⟩ := Operation.exists_operationReads first (ws ++ more)
  rw [List.cons_append, operationOfWords, Operation.ofWords_of_reads hreads] at h
  generalize hwords : first :: (ws ++ more) = all at hreads
  cases hreads with
  | @family _ argument family r hfirst _ =>
    obtain ⟨rfl, htail⟩ := List.cons.inj hwords
    rcases List.mem_cons.mp hw with rfl | hmem
    · -- the word of a family would have the `:`
      have hlower : ':' ∈ lower w := List.mem_map.mpr ⟨':', hcolon, rfl⟩
      rw [hfirst] at hlower
      cases family <;> exact absurd hlower (by decide)
    · have hone : argument.toList.length ≤ 1 := by cases argument <;> simp
      have hpos := List.length_pos_of_mem hmem
      rw [← htail, List.length_append] at hone
      exact List.length_eq_zero_iff.mp (by omega)
  | @op _ o _ _ =>
    obtain ⟨-, htail⟩ := List.cons.inj hwords
    exact (List.append_eq_nil_iff.mp htail).2
  | familyCrowded | opCrowded | unknown => cases h

/-- A label, its `:` and an operation are read as the label with its `:`, and then the operation. -/
theorem exists_ofBody_of_append {label rest : List Char} (hrest : ':' ∉ rest) {st : Statement}
    (h : ofBody (label ++ ':' :: ' ' :: rest) = .ok st) :
    ∃ first second, ofBody (label ++ [':']) = .ok first ∧ ofBody rest = .ok second ∧
      st.steps = first.steps ++ second.steps := by
  have hspace : words (' ' :: rest) = words rest := words_cons_blank rfl rest
  have hcolon : shape rest = (none, words rest) := shape_of_not_mem hrest
  rw [ofBody_eq_ofShape] at h
  obtain ⟨head, tail?, hcut⟩ := exists_cut ':' label
  cases hcut with
  | whole hmem =>
    rw [shape_of_append hmem, hspace] at h
    obtain ⟨name, operation, hname, hoperation, rfl⟩ := ofShape_eq_ok h
    refine ⟨⟨some name, none⟩, ⟨none, operation⟩, ?_, ?_, rfl⟩
    · rw [ofBody_eq_ofShape, shape_of_append hmem, ofShape, hname]
      rfl
    · rw [ofBody_eq_ofShape, hcolon, ofShape, hoperation]
      rfl
  | @split _ tail hmem =>
    -- the first `:` is in front, so the other one is part of a word, and `rest` is blank
    have hassoc : head ++ ':' :: tail ++ ':' :: ' ' :: rest =
        head ++ ':' :: ((tail ++ [':']) ++ [' '] ++ rest) := by simp
    have hblank : Blanks [' '] := List.forall_mem_singleton.mpr rfl
    rw [hassoc, shape_of_append hmem, words_append_gap_append hblank (by simp)] at h
    obtain ⟨name, operation, hname, hoperation, rfl⟩ := ofShape_eq_ok h
    obtain ⟨ws, hws⟩ := exists_words (tail ++ [':'])
    obtain ⟨w, hw, hmem'⟩ := (hws.mem_iff (c := ':') rfl).mp (by simp)
    rw [hws.words_eq] at hoperation
    have hnil := eq_nil_of_operationOfWords hw hmem' hoperation
    rw [hnil, List.append_nil] at hoperation
    refine ⟨⟨some name, operation⟩, ⟨none, none⟩, ?_, ?_, by simp [steps]⟩
    · rw [ofBody_eq_ofShape, List.append_assoc, List.cons_append, shape_of_append hmem,
        hws.words_eq, ofShape, hname, hoperation]
      rfl
    · rw [ofBody_eq_ofShape, hcolon, hnil]
      rfl

theorem ofBody_eq_ok_iff {body text : List Char} (hbody : ';' ∉ body) (htext : Remark text)
    {st : Statement} : ofBody body = .ok st ↔
      ∃ comment, parse (String.ofList (body ++ text)) = .ok (st, comment) := by
  rw [← parse_append_remark hbody htext]
  cases parse (String.ofList (body ++ text)) with
  | error fault => simp [Except.map]
  | ok read => simp [Except.map, Prod.ext_iff]

/-- A line that is read, with a label and an operation without a `:`, is two lines that are read. -/
theorem parsed_of_parse_append {label rest : String} (hlabel : ';' ∉ label.toList)
    (hrest : ':' ∉ rest.toList) {st : Statement} {comment : Option String}
    (h : parse (label ++ ": " ++ rest) = .ok (st, comment)) :
    ∃ first second, Parsed [label ++ ":", rest] [first, second] ∧
      st.steps = first.steps ++ second.steps := by
  obtain ⟨body, text, hbody, htext, hsplit⟩ := exists_remark rest.toList
  have hline : label ++ ": " ++ rest =
      String.ofList ((label.toList ++ ':' :: ' ' :: body) ++ text) := by
    rw [← String.toList_inj, String.toList_ofList]
    simp [hsplit]
  have hfront : label ++ ":" = String.ofList ((label.toList ++ [':']) ++ []) := by
    rw [← String.toList_inj, String.toList_ofList]
    simp
  have hback : rest = String.ofList (body ++ text) := by
    rw [← hsplit, String.ofList_toList]
  have hcolon : ':' ∉ body := by
    rw [hsplit] at hrest
    exact fun hmem => hrest (List.mem_append_left _ hmem)
  have hnone : Remark [] := by simp [Remark]
  rw [hline] at h
  obtain ⟨first, second, hfirst, hsecond, hsteps⟩ := exists_ofBody_of_append hcolon
    ((ofBody_eq_ok_iff (by simp [hlabel, hbody]) htext).mpr ⟨comment, h⟩)
  refine ⟨first, second, .cons ?_ (.cons ?_ .nil), hsteps⟩
  · rw [hfront]
    exact (ofBody_eq_ok_iff (by simp [hlabel]) hnone).mp hfirst
  · rw [hback]
    exact (ofBody_eq_ok_iff hbody htext).mp hsecond

end Statement

namespace Session

/-- Reads lines and applies each of them, up to the first that is not read or is refused. -/
def applyLines (s : Session) : List String → Session × Option Fault
  | [] => (s, none)
  | line :: lines =>
    match Statement.parse line with
    | .error fault => (s, some fault)
    | .ok (st, _) =>
      match st.apply s with
      | (t, none) => t.applyLines lines
      | (t, some fault) => (t, some fault)

/-- Lines that are all read are applied as the steps that they ask for. -/
theorem applyLines_of_parsed {lines : List String} {statements : List Statement}
    (h : Parsed lines statements) (s : Session) :
    s.applyLines lines = s.run (statements.flatMap Statement.steps) := by
  induction h generalizing s with
  | nil => rfl
  | @cons line st lines statements hline _ ih =>
    obtain ⟨comment, hparse⟩ := hline
    rw [applyLines, hparse, List.flatMap_cons]
    simp only [Statement.apply]
    rcases hrun : s.run st.steps with ⟨t, _ | fault⟩
    · exact (ih t).trans (run_append_of_taken hrun _).symm
    · exact (run_append_of_refused hrun _).symm

end Session

namespace Statement

/-- **Layout, comments and letter case do not matter, and a label may stand on its own line.** A
line that is changed any number of times, in its comment, in the blank space in front of the comment
or in the letter case of an operation word or a push operand, is read as the same statement or
refused with a fault of the same kind. A line that is read does to any session what its label with
the `:` and the rest of it do on two lines, faults included. -/
theorem parse_layout_and_case :
    (∀ line line' : String, Relation.EqvGen LineChange line.toList line'.toList →
      Fault.byKind ((parse line).map Prod.fst) = Fault.byKind ((parse line').map Prod.fst)) ∧
    ∀ label rest : String, ';' ∉ label.toList → ':' ∉ rest.toList → ∀ st comment,
      parse (label ++ ": " ++ rest) = .ok (st, comment) →
        ∀ s : Session, st.apply s = s.applyLines [label ++ ":", rest] := by
  constructor
  · intro line line' h
    have hkind := byKind_eq_of_eqvGen h
    rwa [String.ofList_toList, String.ofList_toList] at hkind
  · intro label rest hlabel hrest st comment hparse s
    obtain ⟨first, second, hparsed, hsteps⟩ := parsed_of_parse_append hlabel hrest hparse
    rw [Session.applyLines_of_parsed hparsed, apply, hsteps]
    simp

/-- A comment is dropped, a space becomes a tabulator, and the operation and its operand change
case; and a label is taken from an operation with a comment. -/
theorem parse_layout_and_case_push :
    Relation.EqvGen LineChange "a:push 0xf;b".toList "a:PUSH\t0XF".toList ∧
      Fault.byKind ((parse "a:push 0xf;b").map Prod.fst) =
        Fault.byKind ((parse "a:PUSH\t0XF").map Prod.fst) ∧
      parse "a:PUSH\t0XF" = .ok (⟨some "a", some (.push ⟨[0x0F]⟩)⟩, none) ∧
      parse ("a" ++ ": " ++ "jump a;b") = .ok (⟨some "a", some (.jump (some "a"))⟩, some "b") ∧
      apply ⟨some "a", some (.jump (some "a"))⟩ {} =
        Session.applyLines {} ["a" ++ ":", "jump a;b"] := by
  have hnone : Remark [] := by simp [Remark]
  have hremark : LineChange "a:push 0xf;b".toList "a:push 0xf".toList :=
    @LineChange.remark "a:push 0xf".toList ";b".toList [] (by decide) (by simp [Remark]) hnone
  have hgap : BodyChange "a:push 0xf".toList "a:push\t0xf".toList :=
    @BodyChange.gap [' '] ['\t'] "a:push".toList "0xf".toList (List.forall_mem_singleton.mpr rfl)
      (by simp) (List.forall_mem_singleton.mpr rfl) (by simp)
  have hword : BodyChange "a:push\t0xf".toList "a:PUSH\t0xf".toList :=
    @BodyChange.word "a:".toList [] "push".toList "PUSH".toList "\t0xf".toList
      (@Leads.labelled ['a'] _ (by decide))
      ⟨⟨by decide, by simp [isBlank]⟩, by simp, by simp [isBlank]⟩ rfl (by decide)
  have hoperand : BodyChange "a:PUSH\t0xf".toList "a:PUSH\t0XF".toList :=
    @BodyChange.operand "a:".toList "PUSH\t".toList "PUSH".toList "0xf".toList "0XF".toList []
      (@Leads.labelled ['a'] _ (by decide))
      ⟨⟨by decide, by simp [isBlank]⟩, by simp [isBlank], by simp⟩ (by decide) (by decide)
      (by decide)
  have hbody : ∀ {body body' : List Char}, ';' ∉ body → BodyChange body body' →
      Relation.EqvGen LineChange body body' := by
    intro body body' hmem hchange
    simpa using Relation.EqvGen.rel _ _ (LineChange.body hmem hnone hchange)
  have hchain : Relation.EqvGen LineChange "a:push 0xf;b".toList "a:PUSH\t0XF".toList :=
    (((Relation.EqvGen.rel _ _ hremark).trans _ _ _ (hbody (by decide) hgap)).trans _ _ _
      (hbody (by decide) hword)).trans _ _ _ (hbody (by decide) hoperand)
  have hparse : parse ("a" ++ ": " ++ "jump a;b") =
      .ok (⟨some "a", some (.jump (some "a"))⟩, some "b") := by decide
  obtain ⟨hchange, hsplit⟩ := parse_layout_and_case
  exact ⟨hchain, hchange _ _ hchain, by decide, hparse,
    hsplit "a" "jump a;b" (by decide) (by decide) _ _ hparse {}⟩

end Statement

end BytecodeAssembler
