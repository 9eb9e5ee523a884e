import Mathlib.Data.List.Forall2
import BytecodeAssembler.Proofs.Completion
import BytecodeAssembler.Proofs.Pipeline
import BytecodeAssembler.Proofs.Rendering

/-!
# Names in source text

Labels and targets of jumps are cut out of a line in different ways. A label is what stands in front
of the first `:`, and a target is a word behind it, if there is one. So in a line that is read

* a label is a word without `:` and `;` (`plain_of_label`), and each such word is the label of some
  line;
* a target is a word without `;`, and without `:` unless the line has a label (`word_of_target`).

What a text refers to it can define, then, but for names with a `:` in them: these wait forever.
For any other name that waits there is a line to be added that ends the waiting
(`LeadsTo.exists_cons`), if no label stands at the last offset: such a label cannot move
(`LeadsTo.not_insert`).
-/

namespace BytecodeAssembler

open Text TwoPass

/-! ### Names in a line -/

theorem target_mem_of_reads {ws : List (List Char)} {o : Operation}
    (h : OperationReads ws (.ok o)) {name : String} (hname : o.target? = some name) :
    name.toList ∈ ws := by
  cases h with
  | @family w argument family r hword happlied =>
    cases happlied with
    | jump | jumpi =>
      obtain ⟨target, rfl, rfl⟩ := Option.map_eq_some_iff.mp hname
      simp
    | push | dup | swap => cases hname
  | op => cases hname

theorem Step.named_place {name : String} (h : Plain name.toList) : (Step.place name).Named :=
  ⟨by simpa [label?] using h, by simp [reference?]⟩

namespace Statement

/-- A line that is read: what stands in front of its comment, and behind its label. -/
theorem exists_parts {line : String} {st : Statement} {comment : Option String}
    (h : parse line = .ok (st, comment)) :
    ∃ body rest comment', Cut ';' line.toList body comment' ∧
      comment = comment'.map String.ofList ∧ RestReads rest (.ok st.operation) ∧
      ((st.label = none ∧ rest = body ∧ ':' ∉ body) ∨
        ∃ head name, st.label = some (String.ofList name) ∧ Cut ':' body head (some rest) ∧
          Encloses head name) := by
  have hreads := parse_iff_lineReads.mp h
  generalize hr : (.ok (st, comment) : Except Fault (Statement × Option String)) = r at hreads
  cases hreads with
  | @unlabelled body comment' r hcut hcolon hrest =>
    cases r with
    | error fault => cases hr
    | ok operation =>
      obtain ⟨rfl, rfl⟩ := Prod.mk.inj (Except.ok.inj hr)
      exact ⟨body, body, comment', hcut, rfl, hrest, Or.inl ⟨rfl, rfl, hcolon⟩⟩
  | @labelled body head tail name comment' r hcut hcolon hname hrest =>
    cases r with
    | error fault => cases hr
    | ok operation =>
      obtain ⟨rfl, rfl⟩ := Prod.mk.inj (Except.ok.inj hr)
      exact ⟨body, tail, comment', hcut, rfl, hrest, Or.inr ⟨head, name, rfl, hcolon, hname⟩⟩
  | malformed => cases hr

theorem exists_words_of_restReads {cs : List Char} {o : Operation}
    (h : RestReads cs (.ok (some o))) : ∃ ws, Words cs ws ∧ OperationReads ws (.ok o) := by
  generalize hr : (.ok (some o) : Except Fault (Option Operation)) = r at h
  cases h with
  | blank => cases hr
  | @operation ws r hwords hreads =>
    cases r with
    | error fault => cases hr
    | ok found =>
      obtain rfl := Option.some.inj (Except.ok.inj hr)
      exact ⟨ws, hwords, hreads⟩

section Read

variable {line : String} {st : Statement} {comment : Option String}
  (h : parse line = .ok (st, comment)) {name : String}
include h

/-- **A label is a word that stands for itself.** -/
theorem plain_of_label (hname : st.label = some name) : Plain name.toList := by
  obtain ⟨body, rest, comment', hcut, -, -, hlabel⟩ := exists_parts h
  rcases hlabel with ⟨hnone, -⟩ | ⟨head, name', hlabel, hcolon, hencloses⟩
  · rw [hnone] at hname
    cases hname
  · obtain rfl : String.ofList name' = name := Option.some.inj (hlabel.symm.trans hname)
    rw [String.toList_ofList]
    refine ⟨hencloses.1, ?_, ?_⟩
    · exact fun hmem => hcolon.not_mem (hencloses.subset hmem)
    · exact fun hmem => hcut.not_mem (hcolon.before_subset (hencloses.subset hmem))

/-- **A target is a word**, and may have a `:` in it only behind a label. -/
theorem word_of_target (hname : st.operation.bind Operation.target? = some name) :
    IsWord name.toList ∧ ';' ∉ name.toList ∧ (st.label = none → ':' ∉ name.toList) := by
  obtain ⟨body, rest, comment', hcut, -, hrest, hlabel⟩ := exists_parts h
  obtain ⟨o, ho, htarget⟩ := Option.bind_eq_some_iff.mp hname
  rw [ho] at hrest
  obtain ⟨ws, hwords, hreads⟩ := exists_words_of_restReads hrest
  have hmem := target_mem_of_reads hreads htarget
  have hword := hwords.isWord _ hmem
  have hsubset : name.toList ⊆ rest := fun c hc =>
    (hwords.mem_iff (hword.2 c hc)).mpr ⟨_, hmem, hc⟩
  rcases hlabel with ⟨-, rfl, hcolon⟩ | ⟨head, name', hsome, hcolon, -⟩
  · exact ⟨hword, fun hc => hcut.not_mem (hsubset hc), fun _ hc => hcolon (hsubset hc)⟩
  · refine ⟨hword, fun hc => hcut.not_mem (hcolon.after_subset (hsubset hc)), fun hnone => ?_⟩
    rw [hsome] at hnone
    cases hnone

end Read

/-- A name is the label of a line exactly if it stands for itself. -/
theorem exists_label_iff {name : String} :
    (∃ line st comment, parse line = .ok (st, comment) ∧ st.label = some name) ↔
      Plain name.toList := by
  constructor
  · rintro ⟨line, st, comment, hparse, hlabel⟩
    exact plain_of_label hparse hlabel
  · intro hplain
    exact ⟨_, _, _, Step.parse_render (Step.named_place hplain), rfl⟩

end Statement

/-! ### A label more -/

namespace TwoPass

/-- A label in front ends the waiting for it, and for no other. -/
theorem missing_cons_place (name : String) (as : List Step) :
    missing (.place name :: as) = (missing as).filter fun other => other ≠ name := by
  have hreferences : (Step.place name :: as).filterMap Step.reference? =
      as.filterMap Step.reference? := List.filterMap_cons_none rfl
  rw [missing, missing, hreferences, ← eraseDups_filter, List.filter_filter]
  congr 2
  funext other
  simp [not_or]

/-- **A new label can be placed in front of steps** that place none at the last offset. -/
theorem lawful_cons_place {as : List Step} (h : Lawful as) {name : String}
    (hnew : Step.place name ∉ as) (hroom : ∀ entry ∈ table as, entry.2 ≠ maxOffset) :
    Lawful (.place name :: as) := by
  intro before a after heq
  cases before with
  | nil =>
    obtain ⟨rfl, -⟩ := List.cons.inj heq
    exact not_or.mpr ⟨by simp, by simp⟩
  | cons first before =>
    obtain ⟨rfl, rfl⟩ := List.cons.inj heq
    have hnot := h before a after rfl
    cases a with
    | perform o => cases o <;> exact hnot
    | place label =>
      -- the label moves by one, and is not the last that there is room for
      obtain ⟨hplaced, hle⟩ := not_or.mp hnot
      have hne : label ≠ name := by
        rintro rfl
        exact hnew (by simp)
      have hentry : (label, 0 + extent before) ∈ table (before ++ .place label :: after) :=
        mem_table.mpr (mem_layout.mpr ⟨before, after, rfl, rfl⟩)
      have hlast := hroom _ hentry
      refine not_or.mpr ⟨by simp [hplaced, hne], ?_⟩
      rw [extent_cons]
      simp only [maxOffset, Step.width] at *
      omega

/-- A label at the last offset leaves no room for one in front of it, nor for one behind it. -/
theorem not_lawful_insert_place {before after : List Step} {name : String} {entry : String × Nat}
    (hentry : entry ∈ table (before ++ after)) (hlast : entry.2 = maxOffset) :
    ¬ Lawful (before ++ .place name :: after) := by
  intro h
  obtain ⟨label, offset⟩ := entry
  obtain ⟨front, back, heq, rfl⟩ := mem_layout.mp (mem_table.mp hentry)
  simp only [Nat.zero_add, maxOffset] at hlast
  rcases List.append_eq_append_iff.mp heq with ⟨mid, rfl, hback⟩ | ⟨mid, rfl, hafter⟩
  · have hnot := h (before ++ .place name :: mid) (.place label) back (by simp [hback])
    refine hnot (Or.inr ?_)
    simp only [extent_append, extent_cons, Step.width] at *
    omega
  · cases mid with
    | nil =>
      obtain rfl : after = .place label :: back := by simpa using hafter.symm
      have hnot := h (front ++ [.place name]) (.place label) back (by simp)
      refine hnot (Or.inr ?_)
      simp only [extent_append, extent_cons, extent_nil, Step.width] at *
      omega
    | cons first mid =>
      obtain ⟨rfl, rfl⟩ := List.cons.inj hafter
      have hnot := h (front ++ .place label :: mid) (.place name) after (by simp)
      refine hnot (Or.inr ?_)
      simp only [extent_append, extent_cons, Step.width] at *
      omega

end TwoPass

/-! ### A line more -/

namespace Parsed

variable {lines front back : List String} {statements : List Statement}

theorem append {statements' : List Statement} (h : Parsed front statements)
    (h' : Parsed back statements') : Parsed (front ++ back) (statements ++ statements') :=
  List.rel_append h h'

/-- The statements of a text are those of its parts. -/
theorem exists_append (h : Parsed (front ++ back) statements) :
    ∃ before after, statements = before ++ after ∧ Parsed front before ∧ Parsed back after := by
  induction front generalizing statements with
  | nil => exact ⟨[], statements, rfl, .nil, h⟩
  | cons line front ih =>
    cases h with
    | cons hline hrest =>
      obtain ⟨before, after, rfl, hfront, hback⟩ := ih hrest
      exact ⟨_ :: before, after, rfl, .cons hline hfront, hback⟩

end Parsed

/-- Lines that are all read, and lead to a session without a fault. -/
def LeadsTo (lines : List String) (s : Session) : Prop :=
  ∃ statements, Parsed lines statements ∧
    Session.run {} (statements.flatMap Statement.steps) = (s, none)

/-- A line that places a label and does nothing else. -/
def LabelLine (name line : String) : Prop :=
  ∃ comment, Statement.parse line = .ok (⟨some name, none⟩, comment)

theorem labelLine_render {name : String} (h : Plain name.toList) :
    LabelLine name (Step.place name).render :=
  ⟨none, Step.parse_render (Step.named_place h)⟩

namespace LeadsTo

variable {front back : List String} {line name : String} {s : Session}

/-- A label line in front of a text ends the waiting for its name. -/
theorem exists_cons (h : LeadsTo back s) (hline : LabelLine name line)
    (hname : name ∈ s.labels.unresolved) (hroom : ∀ entry ∈ s.labels.defined, entry.2 ≠ maxOffset) :
    ∃ t, LeadsTo (line :: back) t ∧
      t.labels.unresolved = s.labels.unresolved.filter fun other => other ≠ name := by
  obtain ⟨statements, hparsed, hrun⟩ := h
  have hlinked : Session.Linked (statements.flatMap Statement.steps) s :=
    Session.linked_nil.run hrun
  have hnew : Step.place name ∉ statements.flatMap Statement.steps := by
    rw [hlinked.unresolved] at hname
    exact fun hplaced => not_mem_missing_of_placed hplaced hname
  have htable : ∀ entry ∈ table (statements.flatMap Statement.steps), entry.2 ≠ maxOffset := by
    rw [← hlinked.defined]
    simpa using hroom
  obtain ⟨t, ht⟩ := Session.linked_nil.exists_run (lawful_cons_place hlinked.lawful hnew htable)
  refine ⟨t, ⟨⟨some name, none⟩ :: statements, .cons hline hparsed, ht⟩, ?_⟩
  rw [(Session.linked_nil.run ht).unresolved, hlinked.unresolved]
  exact missing_cons_place name _

/-- A label at the last offset leaves no room for a label line, wherever it stands. -/
theorem not_insert (h : LeadsTo (front ++ back) s) (hline : LabelLine name line)
    {entry : String × Nat} (hentry : entry ∈ s.labels.defined) (hlast : entry.2 = maxOffset)
    (t : Session) : ¬ LeadsTo (front ++ line :: back) t := by
  rintro ⟨statements', hparsed', hrun'⟩
  obtain ⟨statements, hparsed, hrun⟩ := h
  obtain ⟨before, after, rfl, hbefore, hafter⟩ := hparsed.exists_append
  have hinserted : Parsed (front ++ line :: back) (before ++ ⟨some name, none⟩ :: after) :=
    hbefore.append (.cons hline hafter)
  obtain rfl := hparsed'.unique hinserted
  rw [List.flatMap_append] at hrun hrun'
  have hlinked : Session.Linked (before.flatMap Statement.steps ++ after.flatMap Statement.steps)
      s := Session.linked_nil.run hrun
  have hlinked' : Session.Linked
      (before.flatMap Statement.steps ++ .place name :: after.flatMap Statement.steps) t :=
    Session.linked_nil.run hrun'
  refine not_lawful_insert_place ?_ hlast hlinked'.lawful
  rw [← hlinked.defined, Array.mem_toList_iff]
  exact hentry

end LeadsTo

/-- **What text refers to text can define, and the other way round**, but for names with a `:` in
them. Of a line that is read:

* its target is the label of some line exactly if there is no `:` in it, and a target with a `:` in
  it stands behind a label;
* where its target waits in a session that a text leads to, there is a line to be added to the text
  that ends this waiting, and no other, exactly if there is no `:` in the target and no label stands
  at the last offset;
* to its label there are a line that jumps and one that jumps on a condition. -/
theorem names_of_targets_and_labels {line : String} {st : Statement} {comment : Option String}
    (hparse : Statement.parse line = .ok (st, comment)) (name : String) :
    (st.operation.bind Operation.target? = some name →
      ((∃ line' st' comment', Statement.parse line' = .ok (st', comment') ∧
        st'.label = some name) ↔ ':' ∉ name.toList) ∧
      (':' ∈ name.toList → st.label.isSome) ∧
      ∀ lines s, LeadsTo lines s → name ∈ s.labels.unresolved →
        ((∃ front line' back t, lines = front ++ back ∧ LabelLine name line' ∧
          LeadsTo (front ++ line' :: back) t ∧
          t.labels.unresolved = s.labels.unresolved.filter fun other => other ≠ name) ↔
        ':' ∉ name.toList ∧ ∀ entry ∈ s.labels.defined, entry.2 ≠ maxOffset)) ∧
    (st.label = some name →
      Statement.parse ("jump " ++ name) = .ok (⟨none, some (.jump (some name))⟩, none) ∧
      Statement.parse ("jumpi " ++ name) = .ok (⟨none, some (.jumpi (some name))⟩, none)) := by
  refine ⟨?_, ?_⟩
  · intro htarget
    obtain ⟨hword, hsemicolon, hlabel⟩ := Statement.word_of_target hparse htarget
    refine ⟨?_, ?_, ?_⟩
    · rw [Statement.exists_label_iff]
      exact ⟨fun hplain => hplain.2.1, fun hcolon => ⟨hword, hcolon, hsemicolon⟩⟩
    · exact fun hcolon => Option.isSome_iff_ne_none.mpr fun hnone => hlabel hnone hcolon
    · intro lines s hleads hname
      constructor
      · rintro ⟨front, line', back, t, rfl, hline, ht, -⟩
        obtain ⟨comment', hparse'⟩ := id hline
        exact ⟨(Statement.plain_of_label hparse' rfl).2.1,
          fun entry hentry hlast => hleads.not_insert hline hentry hlast t ht⟩
      · rintro ⟨hcolon, hroom⟩
        have hline := labelLine_render ⟨hword, hcolon, hsemicolon⟩
        obtain ⟨t, ht, hunresolved⟩ := hleads.exists_cons hline hname hroom
        exact ⟨[], _, lines, t, rfl, hline, ht, hunresolved⟩
  · intro hlabel
    have hplain := Statement.plain_of_label hparse hlabel
    have hnamed : ∀ a : Step, a.label? = none → a.reference? = some name → a.Named := by
      intro a hnone hsome
      simpa [Step.Named, hnone, hsome] using hplain
    have hjump := Step.parse_render (hnamed (.perform (.jump (some name))) rfl rfl)
    have hjumpi := Step.parse_render (hnamed (.perform (.jumpi (some name))) rfl rfl)
    exact ⟨by simpa [Step.render, Step.statement] using hjump,
      by simpa [Step.render, Step.statement] using hjumpi⟩

/-- A name without `:` and one with a `:`, and only for the first there is a line to be added. -/
theorem names_of_targets_and_labels_waiting :
    let s := (Session.run {} [.place "a", .perform (.jump (some "b:c")),
      .perform (.jumpi (some "d"))]).1
    LeadsTo ["a: jump b:c", "jumpi d"] s ∧ s.labels.unresolved = ["b:c", "d"] ∧
      (∃ front line back t, ["a: jump b:c", "jumpi d"] = front ++ back ∧ LabelLine "d" line ∧
        LeadsTo (front ++ line :: back) t ∧ t.labels.unresolved = ["b:c"]) ∧
      ¬ (∃ line st comment, Statement.parse line = .ok (st, comment) ∧ st.label = some "b:c") ∧
      Statement.parse "jump a" = .ok (⟨none, some (.jump (some "a"))⟩, none) := by
  intro s
  have hfirst : Statement.parse "a: jump b:c" =
      .ok (⟨some "a", some (.jump (some "b:c"))⟩, none) := by decide
  have hsecond : Statement.parse "jumpi d" = .ok (⟨none, some (.jumpi (some "d"))⟩, none) := by
    decide
  have hleads : LeadsTo ["a: jump b:c", "jumpi d"] s :=
    ⟨_, .cons ⟨none, hfirst⟩ (.cons ⟨none, hsecond⟩ .nil), by decide⟩
  have hunresolved : s.labels.unresolved = ["b:c", "d"] := by decide
  have hwaits : "d" ∈ s.labels.unresolved := by
    rw [hunresolved]
    decide
  obtain ⟨-, -, hwaiting⟩ := (names_of_targets_and_labels hsecond "d").1 rfl
  have hline := (hwaiting _ s hleads hwaits).mpr ⟨by decide, by decide⟩
  rw [hunresolved] at hline
  obtain ⟨hcolon, -⟩ := (names_of_targets_and_labels hfirst "b:c").1 rfl
  obtain ⟨hjump, -⟩ := (names_of_targets_and_labels hfirst "a").2 rfl
  exact ⟨hleads, hunresolved, hline, fun hlabel => absurd (hcolon.mp hlabel) (by decide), hjump⟩

/-- A line refers to a name that no line defines. -/
theorem target_without_label :
    Statement.parse "a: jump b:c" = .ok (⟨some "a", some (.jump (some "b:c"))⟩, none) ∧
      Statement.parse "jump b:c" = .error .malformedLine ∧
      ¬ ∃ line st comment, Statement.parse line = .ok (st, comment) ∧ st.label = some "b:c" := by
  refine ⟨by decide, by decide, ?_⟩
  rw [Statement.exists_label_iff]
  decide

end BytecodeAssembler
