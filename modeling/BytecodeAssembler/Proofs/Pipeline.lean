import BytecodeAssembler.Build
import BytecodeAssembler.Disk
import BytecodeAssembler.Proofs.Distinct
import BytecodeAssembler.Proofs.Journal

/-!
# From files to a finished session

What a run builds is told without the run: the files are text, the lines of the distinct files in
the order of their first mention are statements, the steps of all statements are taken by one
session, and the session can be finished.

* `Builds d inputs statements s product` — all of that holds of the files of a disk;
* `Stops d inputs` — the first of it that does not hold;
* `build_spec` — `build` does the one or the other;
* `Stops.not_builds` — and they exclude each other.
-/

namespace BytecodeAssembler

/-! ### Files as lines -/

namespace Disk

variable (d : Disk)

/-- The text of a file, if the file can be read and is text. -/
def text? (path : String) : Option String :=
  match d.read path with
  | .ok contents => String.fromUTF8? contents
  | .error _ => none

/-- A file as a source. -/
def source (path : String) : Source :=
  .ofText path ((d.text? path).getD "")

/-- The lines of the distinct files, in the order in which the files are first mentioned. -/
def lines (paths : List String) : List String :=
  paths.eraseDups.flatMap fun path => (d.source path).texts

variable {d}

theorem text?_of_read {path text : String} (h : d.read path = .ok text.toUTF8) :
    d.text? path = some text := by
  rw [text?, h]
  exact dif_pos text.isValidUTF8

/-- Reading one more file gives the sources of one more path. -/
theorem insert_source (paths : List String) (path : String) :
    Source.insert (paths.eraseDups.map d.source) (d.source path) =
      (paths ++ [path]).eraseDups.map d.source := by
  have hany : ((paths.eraseDups.map d.source).any fun s => s.path == path) = true ↔
      path ∈ paths := by
    rw [List.any_map, List.any_eq_true]
    constructor
    · rintro ⟨p, hp, heq⟩
      obtain rfl : p = path := by simpa [source, Source.ofText] using heq
      exact List.mem_eraseDups.mp hp
    · intro hmem
      exact ⟨path, List.mem_eraseDups.mpr hmem, by simp [source, Source.ofText]⟩
  have hpath : (d.source path).path = path := rfl
  rw [Source.insert, hpath, eraseDups_concat]
  by_cases hmem : path ∈ paths
  · rw [if_pos (hany.mpr hmem), if_pos hmem, List.map_map]
    -- the file that is replaced is replaced by itself
    refine List.map_congr_left fun p _ => ?_
    rw [Function.comp_apply]
    split
    · next heq =>
      obtain rfl : p = path := heq
      rfl
    · rfl
  · rw [if_neg (mt hany.mp hmem), if_neg hmem, List.map_append, List.map_singleton]

end Disk

/-! ### Lines as statements -/

/-- Lines that are all read, and the statements that they are. -/
def Parsed (lines : List String) (statements : List Statement) : Prop :=
  List.Forall₂ (fun line statement => ∃ comment, Statement.parse line = .ok (statement, comment))
    lines statements

namespace Parsed

variable {lines : List String} {statements statements' : List Statement}

theorem unique (h : Parsed lines statements) (h' : Parsed lines statements') :
    statements = statements' := by
  induction h generalizing statements' with
  | nil =>
    cases h'
    rfl
  | cons hline _ ih =>
    cases h' with
    | cons hline' hrest' =>
      obtain ⟨comment, hparse⟩ := hline
      obtain ⟨comment', hparse'⟩ := hline'
      rw [hparse] at hparse'
      cases hparse'
      rw [ih hrest']

theorem exists_of_mem (h : Parsed lines statements) {line : String} (hmem : line ∈ lines) :
    ∃ result, Statement.parse line = .ok result := by
  induction h with
  | nil => cases hmem
  | cons hline _ ih =>
    rcases List.mem_cons.mp hmem with rfl | hrest
    · obtain ⟨comment, hparse⟩ := hline
      exact ⟨_, hparse⟩
    · exact ih hrest

end Parsed

theorem texts_positions (source : Source) : source.positions.map Position.text = source.texts := by
  rw [Source.positions, List.map_map]
  exact List.zipIdx_map_fst 1 source.texts

/-- Lines without a fault are statements. -/
theorem parsed_of_faultsOf {positions : List Position}
    (h : faultsOf (positions.map Position.read) = []) :
    Parsed (positions.map Position.text)
      ((statementsOf (positions.map Position.read)).map SourceLine.statement) := by
  induction positions with
  | nil => exact .nil
  | cons p ps ih =>
    cases hparse : Statement.parse p.text with
    | error fault => simp [faultsOf, Position.read, hparse] at h
    | ok result =>
      obtain ⟨statement, comment⟩ := result
      have hread : p.read = .ok ⟨p, statement, comment⟩ := by rw [Position.read, hparse]
      rw [List.map_cons, List.map_cons, hread]
      rw [List.map_cons, hread] at h
      exact .cons ⟨comment, hparse⟩ (ih h)

theorem exists_of_faultsOf {positions : List Position}
    (h : faultsOf (positions.map Position.read) ≠ []) :
    ∃ line ∈ positions.map Position.text, ∃ fault, Statement.parse line = .error fault := by
  obtain ⟨diagnostic, hmem⟩ := List.exists_mem_of_ne_nil _ h
  obtain ⟨read, hread, hsome⟩ := List.mem_filterMap.mp hmem
  obtain ⟨p, hp, rfl⟩ := List.mem_map.mp hread
  refine ⟨p.text, List.mem_map_of_mem hp, ?_⟩
  cases hparse : Statement.parse p.text with
  | error fault => exact ⟨fault, rfl⟩
  | ok result => simp [Position.read, hparse] at hsome

/-! ### Statements as steps -/

/-- Applying the statements of lines is taking all their steps. -/
theorem applyAll_spec (s : Session) (rows : Array Row) (lines : List SourceLine) :
    (∃ t rows', applyAll s rows lines = .ok (t, rows') ∧
      s.run ((lines.map SourceLine.statement).flatMap Statement.steps) = (t, none)) ∨
    (∃ diagnostic t fault, applyAll s rows lines = .error diagnostic ∧
      s.run ((lines.map SourceLine.statement).flatMap Statement.steps) = (t, some fault)) := by
  induction lines generalizing s rows with
  | nil => exact Or.inl ⟨s, rows, rfl, rfl⟩
  | cons line lines ih =>
    rw [List.map_cons, List.flatMap_cons]
    rcases happly : line.statement.apply s with ⟨t, _ | fault⟩
    · have hall : applyAll s rows (line :: lines) =
          applyAll t (rows.push ⟨line, s.size, t.size⟩) lines := by
        simp only [applyAll, happly]
      rw [hall, Session.run_append_of_taken happly]
      exact ih t _
    · refine Or.inr ⟨⟨fault, line.position⟩, t, fault, ?_, ?_⟩
      · simp only [applyAll, happly]
      · exact Session.run_append_of_refused happly _

theorem assemble_spec (lines : List SourceLine) :
    (∃ product, (assemble lines).2 = some product ∧
      Session.run {} ((lines.map SourceLine.statement).flatMap Statement.steps) =
        (product.session, none) ∧
      product.session.finalize = .ok product.deployment) ∨
    ((assemble lines).2 = none ∧
      ((∃ s fault, Session.run {} ((lines.map SourceLine.statement).flatMap Statement.steps) =
          (s, some fault)) ∨
        ∃ s fault, Session.run {} ((lines.map SourceLine.statement).flatMap Statement.steps) =
          (s, none) ∧ s.finalize = .error fault)) := by
  unfold assemble
  rcases applyAll_spec {} #[] lines with ⟨s, rows, happly, hrun⟩ | ⟨d, s, fault, happly, hrun⟩
  · rw [happly, hrun]
    cases hfinalize : s.finalize with
    | error fault => exact Or.inr ⟨by simp [finish, hfinalize], Or.inr ⟨s, fault, rfl, hfinalize⟩⟩
    | ok deployment =>
      exact Or.inl ⟨⟨s, rows.toList, deployment⟩, by simp [finish, hfinalize], rfl, hfinalize⟩
  · rw [happly, hrun]
    exact Or.inr ⟨rfl, Or.inl ⟨s, fault, rfl⟩⟩

theorem build_of_no_faults {sources : List Source} (h : faultsOf (Source.readAll sources) = []) :
    build sources = assemble (statementsOf (Source.readAll sources)) := by
  simp only [build, h]

theorem build_of_faults {sources : List Source} (h : faultsOf (Source.readAll sources) ≠ []) :
    build sources = (printedDiagnostics (faultsOf (Source.readAll sources)), none) := by
  simp only [build]

/-! ### The whole way -/

/-- The files can be read and are text, their lines are the statements, the steps of the statements
lead to the session, and finishing it gives the product. -/
structure Builds (d : Disk) (inputs : List String) (statements : List Statement) (s : Session)
    (product : Deployment) : Prop where
  readable : ∀ path ∈ inputs, ∃ text, d.text? path = some text
  parsed : Parsed (d.lines inputs) statements
  applied : Session.run {} (statements.flatMap Statement.steps) = (s, none)
  finished : s.finalize = .ok product

/-- Why nothing is built. -/
inductive Stops (d : Disk) (inputs : List String) : Prop
  /-- A file cannot be read, or is not text. -/
  | unreadable {path : String} (hmem : path ∈ inputs) (hnone : d.text? path = none)
  /-- A line is no statement. -/
  | malformed {line : String} {fault : Fault} (hmem : line ∈ d.lines inputs)
      (hparse : Statement.parse line = .error fault)
  /-- A statement is refused. -/
  | refused {statements : List Statement} {s : Session} {fault : Fault}
      (hparsed : Parsed (d.lines inputs) statements)
      (hrun : Session.run {} (statements.flatMap Statement.steps) = (s, some fault))
  /-- The session cannot be finished: labels are referenced and not placed. -/
  | unfinished {statements : List Statement} {s : Session} {fault : Fault}
      (hparsed : Parsed (d.lines inputs) statements)
      (hrun : Session.run {} (statements.flatMap Statement.steps) = (s, none))
      (hfinalize : s.finalize = .error fault)

variable {d : Disk} {inputs : List String}

theorem Builds.unique {statements statements' : List Statement} {s s' : Session}
    {product product' : Deployment} (h : Builds d inputs statements s product)
    (h' : Builds d inputs statements' s' product') : s = s' ∧ product = product' := by
  obtain rfl := h.parsed.unique h'.parsed
  obtain rfl : s = s' := congrArg Prod.fst (h.applied.symm.trans h'.applied)
  exact ⟨rfl, Except.ok.inj (h.finished.symm.trans h'.finished)⟩

theorem Stops.not_builds (h : Stops d inputs) {statements : List Statement} {s : Session}
    {product : Deployment} : ¬ Builds d inputs statements s product := by
  intro hbuilds
  cases h with
  | unreadable hmem hnone =>
    obtain ⟨text, hsome⟩ := hbuilds.readable _ hmem
    rw [hnone] at hsome
    cases hsome
  | malformed hmem hparse =>
    obtain ⟨result, hok⟩ := hbuilds.parsed.exists_of_mem hmem
    rw [hparse] at hok
    cases hok
  | refused hparsed hrun =>
    obtain rfl := hparsed.unique hbuilds.parsed
    cases congrArg Prod.snd (hrun.symm.trans hbuilds.applied)
  | unfinished hparsed hrun hfinalize =>
    obtain rfl := hparsed.unique hbuilds.parsed
    obtain rfl := congrArg Prod.fst (hrun.symm.trans hbuilds.applied)
    cases hfinalize.symm.trans hbuilds.finished

/-- **What is built from files that can be read.** -/
theorem build_spec (hreadable : ∀ path ∈ inputs, ∃ text, d.text? path = some text) :
    (∃ product statements, (build (inputs.eraseDups.map d.source)).2 = some product ∧
      Builds d inputs statements product.session product.deployment) ∨
    ((build (inputs.eraseDups.map d.source)).2 = none ∧ Stops d inputs) := by
  let sources := inputs.eraseDups.map d.source
  let positions := sources.flatMap Source.positions
  have hread : Source.readAll sources = positions.map Position.read := rfl
  have hlines : positions.map Position.text = d.lines inputs := by
    simp only [positions, sources, Disk.lines, List.map_flatMap, List.flatMap_map, texts_positions]
  by_cases hfaults : faultsOf (Source.readAll sources) = []
  · have hparsed : Parsed (d.lines inputs)
        ((statementsOf (Source.readAll sources)).map SourceLine.statement) := by
      rw [← hlines, hread]
      exact parsed_of_faultsOf hfaults
    rw [build_of_no_faults hfaults]
    rcases assemble_spec (statementsOf (Source.readAll sources)) with
      ⟨product, hproduct, hrun, hfinalize⟩ | ⟨hnone, ⟨s, fault, hrun⟩ | ⟨s, fault, hrun, hfinalize⟩⟩
    · exact Or.inl ⟨product, _, hproduct, hreadable, hparsed, hrun, hfinalize⟩
    · exact Or.inr ⟨hnone, .refused hparsed hrun⟩
    · exact Or.inr ⟨hnone, .unfinished hparsed hrun hfinalize⟩
  · obtain ⟨line, hmem, fault, hparse⟩ := exists_of_faultsOf hfaults
    rw [hlines] at hmem
    rw [build_of_faults hfaults]
    exact Or.inr ⟨rfl, .malformed hmem hparse⟩

end BytecodeAssembler
