import BytecodeAssembler.Proofs.Columns
import BytecodeAssembler.Proofs.Dump
import BytecodeAssembler.Proofs.Splitting

/-!
# Listings read again

A session takes the steps that the source columns of a listing ask for as it takes those of the
lines that are listed (`Session.run_relisted`). So a text of source columns, in one file or in many,
builds what was built of the files that were listed (`builds_relisted`). What comes back of a single
line is its label, its comment, and its operation with the operand as it is pushed
(`listing_is_source`).
-/

namespace BytecodeAssembler

open Text

/-! ### The lines of files -/

theorem not_mem_of_mem_positions {d : Disk} {path : String} {p : Position}
    (h : p ∈ (d.source path).positions) : '\n' ∉ p.text.toList := by
  have htext : p.text ∈ (d.source path).texts := by
    rw [← texts_positions]
    exact List.mem_map_of_mem h
  obtain ⟨w, hw, heq⟩ := List.mem_map.mp htext
  rw [← heq, String.toList_ofList]
  exact not_mem_of_mem_lines hw

/-! ### The steps of listed lines -/

/-- What the listing of a step is read as. -/
def Step.relisted : Step → Step
  | place name => place name
  | perform o => perform o.relisted

/-- What the listing of a statement is read as. -/
def Statement.relisted (st : Statement) : Statement :=
  ⟨st.label, st.operation.map Operation.relisted⟩

theorem Statement.steps_relisted (st : Statement) :
    st.relisted.steps = st.steps.map Step.relisted := by
  obtain ⟨_ | label, _ | o⟩ := st <;> rfl

theorem flatMap_steps_relisted (statements : List Statement) :
    (statements.map Statement.relisted).flatMap Statement.steps =
      (statements.flatMap Statement.steps).map Step.relisted := by
  rw [List.flatMap_map, List.map_flatMap]
  exact List.flatMap_congr fun st _ => st.steps_relisted

theorem Statement.perform_mem_steps {st : Statement} {o : Operation} :
    Step.perform o ∈ st.steps ↔ st.operation = some o := by
  obtain ⟨_ | label, _ | operation⟩ := st <;> simp [steps, eq_comm]

namespace Session

theorem perform_relisted (s : Session) {o : Operation} (h : o.Encodes) :
    s.perform o.relisted = s.perform o := by
  cases o with
  | op o =>
    by_cases hjump : o = .JUMP
    · subst hjump
      rfl
    by_cases hjumpi : o = .JUMPI
    · subst hjumpi
      rfl
    rw [Operation.relisted_op hjump hjumpi]
  | push v =>
    obtain ⟨immediate, himmediate⟩ := h v rfl
    have hrelisted : (Operation.push v).relisted = .push ⟨immediate⟩ := by
      simp only [Operation.relisted, Operation.shortened, Operand.shortened_of_encode himmediate]
    rw [hrelisted, perform, perform, himmediate, Operand.encode_immediate himmediate]
  | dup | swap | jump | jumpi => rfl

/-- **What the listing of steps is read as does what the steps do.** -/
theorem run_relisted (s : Session) {as : List Step} (h : ∀ o, .perform o ∈ as → o.Encodes) :
    s.run (as.map Step.relisted) = s.run as := by
  induction as generalizing s with
  | nil => rfl
  | cons a as ih =>
    have hstep : s.step a.relisted = s.step a := by
      cases a with
      | place name => rfl
      | perform o => exact perform_relisted s (h o List.mem_cons_self)
    rw [List.map_cons, run, run, hstep]
    simp only [ih _ fun o ho => h o (List.mem_cons_of_mem _ ho)]

/-- What a session has pushed can be pushed. -/
theorem Linked.encodes {as : List Step} {s : Session} (h : Linked as s) {o : Operation}
    (ho : .perform o ∈ as) : o.Encodes := by
  rintro v rfl
  obtain ⟨before, hnot⟩ := h.lawful.not_refused_of_mem ho
  obtain ⟨hne, hlt⟩ := not_or.mp hnot
  exact ⟨_, Operand.encode_of_lt hne (Nat.not_le.mp hlt)⟩

end Session

/-! ### Listings of runs -/

/-- The source columns of a listing, with a line feed behind each. -/
def Product.columns (p : Product) : List Char :=
  endLines (p.rows.map fun row => (row.line.statement.column row.line.comment).toList)

/-- The source columns of lines are read. -/
theorem parsed_columns {lines : List SourceLine}
    (hread : ∀ line ∈ lines, line.position.read = .ok line)
    (hencodes : ∀ line ∈ lines, ∀ o ∈ line.statement.operation, o.Encodes) :
    Parsed (lines.map fun line => line.statement.column line.comment)
      (lines.map fun line => line.statement.relisted) := by
  rw [Parsed, List.forall₂_map_left_iff, List.forall₂_map_right_iff, List.forall₂_same]
  exact fun line hline => ⟨line.comment,
    Statement.parse_column (parse_of_read (hread line hline)) (hencodes line hline)⟩

/-- What stands on the lines of a session can be pushed. -/
theorem encodes_of_linked {lines : List SourceLine} {s : Session}
    (h : Session.Linked (stepsOf lines) s) {line : SourceLine} (hline : line ∈ lines) :
    ∀ o ∈ line.statement.operation, o.Encodes := by
  intro o ho
  have hmem : line.statement ∈ lines.map SourceLine.statement := List.mem_map_of_mem hline
  exact h.encodes (List.mem_flatMap.mpr ⟨_, hmem, Statement.perform_mem_steps.mpr ho⟩)

/-- The source columns of the lines of files are lines. -/
theorem not_mem_column_of_positions {d : Disk} {paths : List String} {line : SourceLine}
    (hposition : line.position ∈ paths.flatMap fun path => (d.source path).positions)
    (hread : line.position.read = .ok line)
    (hencodes : ∀ o ∈ line.statement.operation, o.Encodes) :
    '\n' ∉ (line.statement.column line.comment).toList := by
  obtain ⟨path, -, hmem⟩ := List.mem_flatMap.mp hposition
  exact Statement.not_mem_column (parse_of_read hread) hencodes (not_mem_of_mem_positions hmem)

/-- Files that present lines are read as the lines are. -/
theorem parsed_of_presents {d : Disk} {paths : List String} {ws : List (List Char)}
    {statements : List Statement} (h : d.Presents paths (endLines ws)) (hws : ∀ w ∈ ws, '\n' ∉ w)
    (hparsed : Parsed (ws.map String.ofList) statements) : Parsed (d.lines paths) statements := by
  rw [h.parsed_iff (closed_endLines ws), lines_endLines hws]
  refine (parsed_congr ?_ statements).mpr hparsed
  rw [List.forall₂_map_left_iff, List.forall₂_map_right_iff, List.forall₂_map_left_iff,
    List.forall₂_same]
  exact fun w _ => Statement.parse_returnedLine (returnedLine_dropReturn w)

section Builds

variable {d : Disk} {inputs : List String} {statements : List Statement} {s : Session}
  {product : Deployment}

/-- **What is built is built again from its listing.** -/
theorem builds_relisted (h : Builds d inputs statements s product) :
    ∃ p : Product, (build (inputs.eraseDups.map d.source)).2 = some p ∧ p.session = s ∧
      p.deployment = product ∧ (p.rows.map fun row => row.line.position) =
        (inputs.eraseDups.flatMap fun path => (d.source path).positions) ∧
      (∀ row ∈ p.rows, row.line.position.read = .ok row.line) ∧
      (∀ row ∈ p.rows, row.start < row.stop ↔ ¬ row.line.statement.isEmpty) ∧
      ∀ d' paths, Disk.Presents d' paths p.columns →
        Builds d' paths (statements.map Statement.relisted) s product := by
  obtain ⟨lines, hreadAll, hpositions, hread, hstatements⟩ := exists_sourceLines h.parsed
  obtain ⟨hbuild, hlinked⟩ := build_rows h hreadAll hstatements
  have hencodes : ∀ line ∈ lines, ∀ o ∈ line.statement.operation, o.Encodes :=
    fun line hline => encodes_of_linked hlinked hline
  refine ⟨_, hbuild, rfl, rfl, ?_, ?_, fun row hrow => lt_iff_of_mem_rowsFrom hrow, ?_⟩
  · rw [map_rowsFrom, hpositions]
  · intro row hrow
    have hline : row.line ∈ (rowsFrom 0 lines).map Row.line := List.mem_map_of_mem hrow
    rw [map_line_rowsFrom] at hline
    exact hread _ hline
  · intro d' paths hpresents
    rw [Product.columns, map_rowsFrom fun line => (line.statement.column line.comment).toList]
      at hpresents
    refine ⟨hpresents.readable, parsed_of_presents hpresents ?_ ?_, ?_, h.finished⟩
    · rintro w hw
      obtain ⟨line, hline, rfl⟩ := List.mem_map.mp hw
      have hposition : line.position ∈ lines.map SourceLine.position := List.mem_map_of_mem hline
      rw [hpositions] at hposition
      exact not_mem_column_of_positions hposition (hread line hline) (hencodes line hline)
    · have hparsed := parsed_columns hread hencodes
      rw [← hstatements, List.map_map, List.map_map]
      simpa only [Function.comp_def, String.ofList_toList] using hparsed
    · have hsteps : ∀ o, .perform o ∈ statements.flatMap Statement.steps → o.Encodes := by
        rw [← hstatements]
        exact fun o ho => hlinked.encodes ho
      rw [flatMap_steps_relisted, Session.run_relisted _ hsteps, h.applied]

end Builds

/-- What comes back of an operation that was read. -/
theorem map_relisted_of_parse {line : String} {st : Statement} {comment : Option String}
    (hparse : Statement.parse line = .ok (st, comment)) (hne : st.operation ≠ some (.op .JUMPI)) :
    st.operation.map Operation.relisted = st.operation.map Operation.shortened := by
  cases ho : st.operation with
  | none => rfl
  | some o =>
    have hrelisted : o.relisted = o.shortened := by
      cases o with
      | op o =>
        refine Operation.relisted_op ?_ ?_
        · -- the operation `JUMP` is never read
          rintro rfl
          obtain ⟨_, _, _, _, _, hrest, _⟩ := Statement.exists_parts hparse
          rw [ho] at hrest
          obtain ⟨ws, -, hreads⟩ := Statement.exists_words_of_restReads hrest
          exact not_reads_op_jump hreads
        · rintro rfl
          exact hne ho
      | push | dup | swap | jump | jumpi => rfl
    rw [Option.map_some, Option.map_some, hrelisted]

/-- **A listing is source text**, but for one spelling of one operation. What is shown of a line
that is read, and whose number can be pushed if it has one, is the source column with changes of
look in it. The column is read with the same label and the same comment, and with the same
operation, whose operand is as it is pushed, exactly if the operation is not `JUMPI`. That one is
read only where it is spelled with a dotless letter, and comes back as a jump without a target.

If a run answers 0 and prints a listing, then each row of it ends in what is shown of its line, and
files that hold the source columns build the same session and the same deployment as the files that
were listed, whatever the spelling. -/
theorem listing_is_source {line : String} {st : Statement} {comment : Option String}
    (hparse : Statement.parse line = .ok (st, comment))
    (hencodes : ∀ o ∈ st.operation, o.Encodes) :
    Unstyled (st.listed comment).ansi (st.column comment) ∧
    (Statement.parse (st.column comment) =
        .ok (⟨st.label, st.operation.map Operation.shortened⟩, comment) ↔
      st.operation ≠ some (.op .JUMPI)) ∧
    (st.operation = some (.op .JUMPI) → Statement.parse (st.column comment) =
      .ok (⟨st.label, some (.jumpi none)⟩, comment)) ∧
    ∀ disk arguments o, Request.parse arguments = .assemble o → o.dump = true →
      (runOn disk arguments).1 = 0 → ∃ before statements, ∃ p : Product,
        (runOn disk arguments).2.printed = before ++ p.listing o ∧
        p.listing o = Listing.text (if o.runtimeOnly then none else some p.deployment.loader)
          (o.inputs.eraseDups.filter fun path => (disk.source path).texts ≠ []) p.rows
          (fun row => row.frontText p.deployment.runtime ++
            (row.line.statement.listed row.line.comment).ansi ++ "\n") ∧
        (p.rows.map fun row => row.line.position) =
          (o.inputs.eraseDups.flatMap fun path => (disk.source path).positions) ∧
        (∀ row ∈ p.rows, row.line.position.read = .ok row.line) ∧
        Builds disk o.inputs statements p.session p.deployment ∧
        ∀ disk' inputs, Disk.Presents disk' inputs p.columns →
          Builds disk' inputs (statements.map Statement.relisted) p.session p.deployment := by
  have hcolumn := Statement.parse_column hparse hencodes
  refine ⟨Styled.unstyled_plain _, ?_, ?_, ?_⟩
  · rw [hcolumn]
    constructor
    · intro hsame ho
      rw [ho] at hsame
      cases hsame
    · intro hne
      rw [map_relisted_of_parse hparse hne]
  · intro ho
    rw [hcolumn, ho]
    rfl
  · intro disk arguments o hparse hdump hzero
    have hends := run_ends disk hparse
    rw [hzero] at hends
    obtain ⟨statements, s, product, hbuilds, -⟩ := hends.exists_delivered
    obtain ⟨p, hp, rfl, rfl, hpositions, hread, hoccupied, hagain⟩ := builds_relisted hbuilds
    obtain ⟨before, hprinted⟩ := printed_listing hparse hdump hzero hp
    exact ⟨before, statements, p, hprinted, listing_text hbuilds hpositions hoccupied, hpositions,
      hread, hbuilds, hagain⟩

/-- A number that is pushed shorter than it was written, and a file that is built again from its
listing. -/
theorem listing_is_source_loop :
    (Statement.parse "top: PuSh 0X00fF;a:b" =
        .ok (⟨some "top", some (.push ⟨[0, 0xFF]⟩)⟩, some "a:b") ∧
      Statement.column ⟨some "top", some (.push ⟨[0, 0xFF]⟩)⟩ (some "a:b") =
        "top: push   0xff ;a:b" ∧
      Statement.parse "top: push   0xff ;a:b" =
        .ok (⟨some "top", some (.push ⟨[0xFF]⟩)⟩, some "a:b")) ∧
    (runOn (.ofSource "loop: JUMP loop") ["-d"]).1 = 0 ∧
    ∃ s product statements statements',
      Builds (.ofSource "loop: JUMP loop") ["main.evm"] statements s product ∧
      Builds (.ofSource "loop: jump   loop \n") ["main.evm"] statements' s product := by
  have hparse : Statement.parse "top: PuSh 0X00fF;a:b" =
      .ok (⟨some "top", some (.push ⟨[0, 0xFF]⟩)⟩, some "a:b") := by decide
  have hcolumn : Statement.column ⟨some "top", some (.push ⟨[0, 0xFF]⟩)⟩ (some "a:b") =
      "top: push   0xff ;a:b" := by decide
  have hencodes : ∀ o ∈ some (.push ⟨[0, 0xFF]⟩), Operation.Encodes o := by
    rintro o ⟨⟩ v ⟨⟩
    exact ⟨[0xFF], by decide⟩
  obtain ⟨-, hsame, -, hruns⟩ := listing_is_source hparse hencodes
  have hagain := hsame.mpr (by decide)
  rw [hcolumn] at hagain
  have hzero : (runOn (.ofSource "loop: JUMP loop") ["-d"]).1 = 0 := by decide +kernel
  obtain ⟨_, statements, p, -, -, hpositions, hread, hbuilds, hagain'⟩ := hruns
    (.ofSource "loop: JUMP loop") ["-d"] ⟨["main.evm"], "main.evm.hex", false, none, true⟩
    (by decide) rfl hzero
  refine ⟨⟨hparse, hcolumn, hagain⟩, hzero, p.session, p.deployment, statements, _, hbuilds,
    hagain' _ _ ?_⟩
  have htext : (Disk.ofSource "loop: JUMP loop").text? "main.evm" = some "loop: JUMP loop" :=
    Disk.text?_of_read rfl
  have hposition : ((Disk.ofSource "loop: JUMP loop").source "main.evm").positions =
      [⟨"main.evm", 1, "loop: JUMP loop"⟩] := by
    rw [Disk.source, htext]
    decide
  have hlist : (p.rows.map fun row => row.line.position) = [⟨"main.evm", 1, "loop: JUMP loop"⟩] :=
    hpositions.trans ((List.flatMap_singleton _ _).trans hposition)
  obtain ⟨row, hrows, hrow⟩ := List.map_eq_singleton_iff.mp hlist
  have hline := parse_of_read (hread row (by simp [hrows]))
  have hcolumns : p.columns = "loop: jump   loop \n".toList := by
    have hstatement : Statement.parse "loop: JUMP loop" =
        .ok (⟨some "loop", some (.jump (some "loop"))⟩, none) := by decide
    rw [hrow, hstatement] at hline
    obtain ⟨hst, hcomment⟩ := Prod.mk.inj (Except.ok.inj hline)
    rw [Product.columns, hrows, List.map_singleton, ← hst, ← hcomment]
    decide
  have hpaths : ["main.evm"].eraseDups = ["main.evm"] := rfl
  rw [hcolumns]
  exact presents_whole hpaths (Disk.text?_of_read rfl) (Returned.refl _) (Or.inr (by decide))

/-- With a dotless letter an operation is read that its listing is not. -/
theorem listing_of_dotless :
    Statement.parse "jumpı" = .ok (⟨none, some (.op .JUMPI)⟩, none) ∧
      Statement.column ⟨none, some (.op .JUMPI)⟩ none = "jumpi   " ∧
      Statement.parse "jumpi   " = .ok (⟨none, some (.jumpi none)⟩, none) := by
  decide

end BytecodeAssembler
