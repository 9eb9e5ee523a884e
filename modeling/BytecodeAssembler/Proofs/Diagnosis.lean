import Mathlib.Data.List.Nodup
import BytecodeAssembler.Proofs.Dump
import BytecodeAssembler.Proofs.Transcript

/-!
# The lines that diagnostics point at

Two computations speak of names that are nowhere placed: the ledger that a session keeps while it
takes steps, and a second look at the lines that were read. Both come to the names that are
referenced and never placed (`missing_steps`), so the summary and the lines below it agree.

* `diagnosticsBy` — one diagnostic for each position of which a fault is told, in their order;
* `Position.fault?` tells why a line is no statement, `Position.waits?` that it jumps to one of some
  names;
* `build_faulty`, `build_unresolved` — the transcript of a build that ends with either.
-/

namespace BytecodeAssembler

open Text TwoPass

/-! ### Diagnostics of positions -/

/-- Why a line is no statement. -/
def Position.fault? (p : Position) : Option Fault :=
  match Statement.parse p.text with
  | .ok _ => none
  | .error fault => some fault

/-- The name that a line jumps to. -/
def Position.target? (p : Position) : Option String :=
  match Statement.parse p.text with
  | .ok (statement, _) => statement.operation.bind Operation.target?
  | .error _ => none

/-- That a line jumps to one of some names. -/
def Position.waits? (names : List String) (p : Position) : Option Fault :=
  (p.target?.filter fun name => name ∈ names).map fun name => .unresolvedLabels [name]

theorem Position.isSome_waits? (names : List String) (p : Position) :
    (p.waits? names).isSome = p.target?.any fun name => name ∈ names := by
  rw [waits?]
  cases p.target? with
  | none => rfl
  | some name => by_cases hname : name ∈ names <;> simp [hname]

/-- One diagnostic for each position of which a fault is told, in the order of the positions. -/
def diagnosticsBy (tell : Position → Option Fault) (positions : List Position) : List Diagnostic :=
  positions.filterMap fun p => (tell p).map fun fault => ⟨fault, p⟩

section By

variable {tell : Position → Option Fault} {positions : List Position}

theorem mem_diagnosticsBy {d : Diagnostic} :
    d ∈ diagnosticsBy tell positions ↔ d.position ∈ positions ∧ tell d.position = some d.fault := by
  obtain ⟨fault, position⟩ := d
  rw [diagnosticsBy, List.mem_filterMap]
  constructor
  · rintro ⟨p, hp, hd⟩
    obtain ⟨fault', hfault, heq⟩ := Option.map_eq_some_iff.mp hd
    obtain ⟨rfl, rfl⟩ := Diagnostic.mk.inj heq
    exact ⟨hp, hfault⟩
  · rintro ⟨hp, hfault⟩
    exact ⟨position, hp, by rw [hfault]; rfl⟩

/-- **The positions that diagnostics point at** are those of which there is a fault to tell. -/
theorem map_position_diagnosticsBy :
    (diagnosticsBy tell positions).map Diagnostic.position =
      positions.filter fun p => (tell p).isSome := by
  induction positions with
  | nil => rfl
  | cons p positions ih =>
    rw [diagnosticsBy] at ih ⊢
    cases htell : tell p with
    | none => simpa [htell] using ih
    | some fault => simpa [htell] using ih

end By

/-! ### Positions of files -/

/-- The lines of the distinct files, in the order in which the files are first mentioned. -/
def Disk.positions (d : Disk) (paths : List String) : List Position :=
  paths.eraseDups.flatMap fun path => (d.source path).positions

section Positions

variable {d : Disk} {paths : List String}

theorem readAll_eq_map_positions :
    Source.readAll (paths.eraseDups.map d.source) = (d.positions paths).map Position.read := by
  rw [Source.readAll, List.flatMap_map, Disk.positions]

/-- A position tells the path of a file, the number of a line from one on, and the line. -/
theorem mem_positions {p : Position} :
    p ∈ d.positions paths ↔ p.path ∈ paths ∧ ∃ i, p.number = i + 1 ∧
      (d.source p.path).texts[i]? = some p.text := by
  obtain ⟨path, number, text⟩ := p
  simp only [Disk.positions, Source.positions, List.mem_flatMap, List.mem_map, List.mem_eraseDups]
  constructor
  · rintro ⟨path', hpath, ⟨text', number'⟩, hmem, heq⟩
    obtain ⟨rfl, rfl, rfl⟩ := Position.mk.inj heq
    obtain ⟨hle, htext⟩ := List.mk_mem_zipIdx_iff_le_and_getElem?_sub.mp hmem
    exact ⟨hpath, number' - 1, by omega, htext⟩
  · rintro ⟨hpath, i, rfl, htext⟩
    refine ⟨path, hpath, (text, i + 1), ?_, rfl⟩
    exact List.mk_mem_zipIdx_iff_le_and_getElem?_sub.mpr ⟨by omega, htext⟩

theorem nodup_positions : (d.positions paths).Nodup := by
  refine List.nodup_flatMap.mpr ⟨?_, ?_⟩
  · intro path _
    refine List.Nodup.of_map Position.number ?_
    rw [Source.positions, List.map_map]
    show (List.map Prod.snd _).Nodup
    rw [List.zipIdx_map_snd]
    exact List.nodup_range'
  · refine (nodup_eraseDups paths).imp ?_
    intro path path' hne p hp hp'
    obtain ⟨_, -, rfl⟩ := List.mem_map.mp hp
    obtain ⟨_, -, heq⟩ := List.mem_map.mp hp'
    exact hne (congrArg Position.path heq).symm

end Positions

/-! ### Lines that are no statements -/

theorem faultsOf_map_read (positions : List Position) :
    faultsOf (positions.map Position.read) = diagnosticsBy Position.fault? positions := by
  rw [faultsOf, diagnosticsBy, List.filterMap_map]
  refine List.filterMap_congr fun p _ => ?_
  rw [Function.comp_apply, Position.read, Position.fault?]
  cases Statement.parse p.text <;> rfl

/-- Of lines that are no statements, and of nothing else, the transcript tells. -/
theorem build_faulty {d : Disk} {paths : List String}
    (h : diagnosticsBy Position.fault? (d.positions paths) ≠ []) :
    build (paths.eraseDups.map d.source) =
      (printedDiagnostics (diagnosticsBy Position.fault? (d.positions paths)), none) := by
  rw [← faultsOf_map_read, ← readAll_eq_map_positions] at h ⊢
  exact build_of_faults h

/-! ### Names that are nowhere placed -/

/-- The names that statements refer to and none of them defines, each once, by first reference. -/
def waitingNames (statements : List Statement) : List String :=
  ((statements.filterMap fun st => st.operation.bind Operation.target?).filter fun name =>
    some name ∉ statements.map Statement.label).eraseDups

theorem filterMap_reference_steps (statements : List Statement) :
    (statements.flatMap Statement.steps).filterMap Step.reference? =
      statements.filterMap fun st => st.operation.bind Operation.target? := by
  induction statements with
  | nil => rfl
  | cons st statements ih =>
    have hsteps : st.steps.filterMap Step.reference? =
        (st.operation.bind Operation.target?).toList := by
      obtain ⟨_ | label, _ | o⟩ := st
      case none.some | some.some =>
        cases htarget : o.target? <;>
          simp [Statement.steps, Step.reference?, List.filterMap_cons, htarget]
      all_goals rfl
    rw [List.flatMap_cons, List.filterMap_append, hsteps, ih]
    cases htarget : st.operation.bind Operation.target? <;> simp [htarget]

theorem place_mem_steps {statements : List Statement} {name : String} :
    Step.place name ∈ statements.flatMap Statement.steps ↔
      some name ∈ statements.map Statement.label := by
  rw [List.mem_flatMap, List.mem_map]
  refine exists_congr fun st => and_congr_right fun _ => ?_
  obtain ⟨_ | label, _ | o⟩ := st <;> simp [Statement.steps, eq_comm]

/-- **The ledger and the lines speak of the same names.** -/
theorem missing_steps (statements : List Statement) :
    missing (statements.flatMap Statement.steps) = waitingNames statements := by
  rw [missing, waitingNames, filterMap_reference_steps]
  simp only [place_mem_steps]

theorem missingTargets_eq {lines : List SourceLine}
    (hread : ∀ line ∈ lines, line.position.read = .ok line) (names : List String) :
    missingTargets names lines =
      diagnosticsBy (Position.waits? names) (lines.map SourceLine.position) := by
  rw [missingTargets, diagnosticsBy, List.filterMap_map]
  refine List.filterMap_congr fun line hline => ?_
  have htarget : line.position.target? = line.statement.operation.bind Operation.target? := by
    rw [Position.target?, parse_of_read (hread line hline)]
  rw [Function.comp_apply, Position.waits?, htarget]
  cases line.statement.operation.bind Operation.target? with
  | none => rfl
  | some name =>
    by_cases hname : name ∈ names
    · simp [hname]
    · simp [hname]

theorem Session.finalize_of_unresolved {s : Session} (h : s.labels.unresolved ≠ []) :
    s.finalize = .error (.unresolvedLabels s.labels.unresolved) := by
  have hpending : s.labels.pending ≠ #[] := by
    intro hempty
    rw [Labels.unresolved, hempty] at h
    exact h rfl
  simp [finalize, runtime, Labels.checkResolved, hpending]

theorem Diagnostic.printed_summary (names : List String) :
    printed [headline (Fault.unresolvedLabels names).message] =
      "\x1b[31m\x1b[1merror\x1b[39m\x1b[22m: Undefined labels: " ++
        String.intercalate ", " names ++ "\n" := by
  have hlead : "\x1b[31m\x1b[1merror\x1b[39m\x1b[22m: Undefined labels: " =
      "\x1b[31m\x1b[1merror\x1b[39m\x1b[22m: " ++ "Undefined labels: " := by simp
  have hmessage : (Fault.unresolvedLabels names).message =
      "Undefined labels: " ++ String.intercalate ", " names := rfl
  rw [printed_cons, printed_nil, String.append_empty, ansi_headline, hmessage, hlead,
    ← String.append_assoc]

section Unresolved

variable {d : Disk} {paths : List String} {statements : List Statement} {s : Session}
  (hparsed : Parsed (d.lines paths) statements)
  (hrun : Session.run {} (statements.flatMap Statement.steps) = (s, none))
  (hwaiting : waitingNames statements ≠ [])
include hparsed hrun hwaiting

/-- Of the names that are nowhere placed the transcript tells once, and then of each line that jumps
to one of them. -/
theorem build_unresolved :
    build (paths.eraseDups.map d.source) =
      ("2. Assemble\n" ++
        ("  - " ++ Nat.repr s.size ++ " bytes, " ++ Nat.repr s.labels.defined.size ++
          " labels\n") ++
        "3. Resolve Labels & Build Loader\n" ++
        ("\x1b[31m\x1b[1merror\x1b[39m\x1b[22m: Undefined labels: " ++
          String.intercalate ", " (waitingNames statements) ++ "\n") ++
        String.join ((diagnosticsBy (Position.waits? (waitingNames statements))
          (d.positions paths)).map fun d => Diagnostic.paragraph d.fault.message d.position),
        none) := by
  obtain ⟨lines, hlines, hpositions, hread, hstatements⟩ := exists_sourceLines hparsed
  have hunresolved : s.labels.unresolved = waitingNames statements := by
    rw [(Session.linked_nil.run hrun).unresolved, List.nil_append, missing_steps]
  have hfinalize := Session.finalize_of_unresolved (hunresolved.trans_ne hwaiting)
  rw [hunresolved] at hfinalize
  rw [build_sourceLines hlines, assemble]
  rw [← hstatements] at hrun
  rcases applyAll_spec {} #[] lines with ⟨t, rows, happly, hrun'⟩ | ⟨_, t, fault, happly, hrun'⟩
  · obtain rfl : s = t := congrArg Prod.fst (hrun.symm.trans hrun')
    rw [happly]
    simp only [finish, hfinalize, finishFailure, missingTargets_eq hread, hpositions,
      printedDiagnostics_eq, Diagnostic.printed_summary, decimal_eq, String.append_assoc]
    rfl
  · cases congrArg Prod.snd (hrun.symm.trans hrun')

omit hparsed hrun hwaiting in
/-- A diagnostic names the label that its line jumps to. -/
theorem message_of_mem_waits {names : List String} {positions : List Position} {d : Diagnostic}
    (h : d ∈ diagnosticsBy (Position.waits? names) positions) :
    ∃ name ∈ names, d.position.target? = some name ∧
      d.fault.message = "Undefined labels: " ++ name := by
  obtain ⟨-, hwaits⟩ := mem_diagnosticsBy.mp h
  obtain ⟨name, hname, hfault⟩ := Option.map_eq_some_iff.mp hwaits
  obtain ⟨htarget, hmem⟩ := Option.filter_eq_some_iff.mp hname
  exact ⟨name, of_decide_eq_true hmem, htarget, by rw [← hfault]; rfl⟩

omit hrun hwaiting in
/-- A name that is nowhere placed is pointed at. -/
theorem exists_pointing {name : String} (hname : name ∈ waitingNames statements) :
    ∃ diagnostic ∈ diagnosticsBy (Position.waits? (waitingNames statements)) (d.positions paths),
      diagnostic.fault = .unresolvedLabels [name] := by
  obtain ⟨lines, -, hpositions, hread, hstatements⟩ := exists_sourceLines hparsed
  obtain ⟨hreferenced, -⟩ := List.mem_filter.mp (List.mem_eraseDups.mp hname)
  obtain ⟨st, hst, htarget⟩ := List.mem_filterMap.mp hreferenced
  rw [← hstatements] at hst
  obtain ⟨line, hline, rfl⟩ := List.mem_map.mp hst
  have hmem : line.position ∈ d.positions paths := by
    rw [Disk.positions, ← hpositions]
    exact List.mem_map_of_mem hline
  refine ⟨⟨.unresolvedLabels [name], line.position⟩, mem_diagnosticsBy.mpr ⟨hmem, ?_⟩, rfl⟩
  have hposition : line.position.target? = some name := by
    rw [Position.target?, parse_of_read (hread line hline)]
    exact htarget
  simp [Position.waits?, hposition, hname]

end Unresolved

/-! ### Runs that diagnose -/

/-- What is printed when files are read. -/
def opening (paths : List String) : String :=
  "EVM Assembler\n1. Read Files and Parse Lines\n" ++
    String.join (paths.map fun path => "  < " ++ path ++ "\n")

/-- A run that builds nothing prints the transcript last, and changes nothing. -/
theorem runOn_of_build {disk : Disk} {arguments : List String} {o : Options} {transcript : String}
    (hparse : Request.parse arguments = .assemble o)
    (hreadable : ∀ path ∈ o.inputs, ∃ text, disk.text? path = some text)
    (hbuild : build (o.inputs.eraseDups.map disk.source) = (transcript, none)) :
    runOn disk arguments = (1, ⟨disk, opening o.inputs ++ transcript⟩) := by
  have hreads := does_readSources [] hreadable
  rw [List.nil_append] at hreads
  have hdoes := does_assembleFiles_transcript hreads hbuild ""
  have hrun : runOn disk arguments = (assembleFiles World.host o).run ⟨disk, ""⟩ := by
    rw [runOn, run, hparse]
  have hopening : opening o.inputs ++ transcript =
      "EVM Assembler\n1. Read Files and Parse Lines\n" ++
        (String.join (o.inputs.map reading) ++ transcript) := String.append_assoc
  rw [hrun, hdoes, String.empty_append, hopening]

/-- **Diagnostics are complete and exact.** Of a run whose inputs can all be read:

* if a line is no statement, then what is printed behind the paths is one diagnostic for each such
  line, with what is wrong with this line, and nothing else;
* if the statements of all lines are applied, and there are names that are referenced and never
  placed, then what is printed last is a summary of these names, each once by first reference, and
  one diagnostic for each line that jumps to one of them, with the name. Each of the names is pointed
  at.

The diagnostics stand in the order of the lines: of the distinct files in the order of their first
mention, each line once, with its number from one on. -/
theorem diagnostics_are_exact {disk : Disk} {arguments : List String} {o : Options}
    (hparse : Request.parse arguments = .assemble o)
    (hreadable : ∀ path ∈ o.inputs, ∃ text, disk.text? path = some text) :
    ((∃ p ∈ disk.positions o.inputs, ∃ fault, Statement.parse p.text = .error fault) →
      ∃ ds, runOn disk arguments = (1, ⟨disk, opening o.inputs ++
          String.join (ds.map fun d => Diagnostic.paragraph d.fault.message d.position)⟩) ∧
        ds = diagnosticsBy Position.fault? (disk.positions o.inputs) ∧
        ds.map Diagnostic.position =
          (disk.positions o.inputs).filter fun p => p.fault?.isSome) ∧
    (∀ statements s, Parsed (disk.lines o.inputs) statements →
      Session.run {} (statements.flatMap Statement.steps) = (s, none) →
      waitingNames statements ≠ [] →
      ∃ ds, runOn disk arguments = (1, ⟨disk, opening o.inputs ++
          ("2. Assemble\n" ++
          ("  - " ++ Nat.repr s.size ++ " bytes, " ++ Nat.repr s.labels.defined.size ++
            " labels\n") ++
          "3. Resolve Labels & Build Loader\n" ++
          ("\x1b[31m\x1b[1merror\x1b[39m\x1b[22m: Undefined labels: " ++
            String.intercalate ", " (waitingNames statements) ++ "\n") ++
          String.join (ds.map fun d => Diagnostic.paragraph d.fault.message d.position))⟩) ∧
        ds = diagnosticsBy (Position.waits? (waitingNames statements))
          (disk.positions o.inputs) ∧
        ds.map Diagnostic.position = ((disk.positions o.inputs).filter fun p =>
          p.target?.any fun name => name ∈ waitingNames statements) ∧
        (∀ d ∈ ds, ∃ name ∈ waitingNames statements, d.position.target? = some name ∧
          d.fault.message = "Undefined labels: " ++ name) ∧
        ∀ name ∈ waitingNames statements, ∃ d ∈ ds, d.fault = .unresolvedLabels [name]) ∧
    (disk.positions o.inputs).Nodup ∧
    ∀ p, p ∈ disk.positions o.inputs ↔ p.path ∈ o.inputs ∧ ∃ i, p.number = i + 1 ∧
      (disk.source p.path).texts[i]? = some p.text := by
  refine ⟨?_, ?_, nodup_positions, fun p => mem_positions⟩
  · rintro ⟨p, hp, fault, hfault⟩
    have hmem : (⟨fault, p⟩ : Diagnostic) ∈
        diagnosticsBy Position.fault? (disk.positions o.inputs) :=
      mem_diagnosticsBy.mpr ⟨hp, by rw [Position.fault?, hfault]⟩
    have hrun := runOn_of_build hparse hreadable (build_faulty (List.ne_nil_of_mem hmem))
    rw [printedDiagnostics_eq] at hrun
    exact ⟨_, hrun, rfl, map_position_diagnosticsBy⟩
  · intro statements s hparsed hrun hwaiting
    refine ⟨_, runOn_of_build hparse hreadable (build_unresolved hparsed hrun hwaiting), rfl, ?_,
      fun d hd => message_of_mem_waits hd, fun name hname => exists_pointing hparsed hname⟩
    rw [map_position_diagnosticsBy]
    simp only [Position.isSome_waits?]

theorem positions_ofSource (text : String) : (Disk.ofSource text).positions ["main.evm"] =
    (Source.ofText "main.evm" text).positions := by
  have htext : (Disk.ofSource text).text? "main.evm" = some text := Disk.text?_of_read rfl
  have hsource : (Disk.ofSource text).source "main.evm" = .ofText "main.evm" text := by
    rw [Disk.source, htext]
    rfl
  rw [Disk.positions]
  exact (List.flatMap_singleton _ _).trans (congrArg Source.positions hsource)

/-- Six of seven lines that are no statements, each for a reason of its own, and three of four lines
that jump to two names. -/
theorem diagnostics_are_exact_lines :
    runOn (.ofSource "frob\ndup\nstop 1\nstop\ndup x\npush 0xzz\n: stop") [] =
      (1, ⟨.ofSource "frob\ndup\nstop 1\nstop\ndup x\npush 0xzz\n: stop",
        "EVM Assembler\n1. Read Files and Parse Lines\n  < main.evm\n" ++
        "\x1b[31m\x1b[1merror\x1b[39m\x1b[22m: Unknown operation: `frob`\n" ++
        "     \x1b[34m-->\x1b[39m \x1b[4mmain.evm:1\x1b[24m\n" ++
        "      \x1b[34m|\x1b[39m\n" ++
        " \x1b[34m   1 |\x1b[39m frob\n" ++
        "      \x1b[34m|\x1b[39m\n" ++
        "\x1b[31m\x1b[1merror\x1b[39m\x1b[22m: More argument required\n" ++
        "     \x1b[34m-->\x1b[39m \x1b[4mmain.evm:2\x1b[24m\n" ++
        "      \x1b[34m|\x1b[39m\n" ++
        " \x1b[34m   2 |\x1b[39m dup\n" ++
        "      \x1b[34m|\x1b[39m\n" ++
        "\x1b[31m\x1b[1merror\x1b[39m\x1b[22m: Unexpected argument: `1`\n" ++
        "     \x1b[34m-->\x1b[39m \x1b[4mmain.evm:3\x1b[24m\n" ++
        "      \x1b[34m|\x1b[39m\n" ++
        " \x1b[34m   3 |\x1b[39m stop 1\n" ++
        "      \x1b[34m|\x1b[39m\n" ++
        "\x1b[31m\x1b[1merror\x1b[39m\x1b[22m: Cannot parse `x` as index\n" ++
        "     \x1b[34m-->\x1b[39m \x1b[4mmain.evm:5\x1b[24m\n" ++
        "      \x1b[34m|\x1b[39m\n" ++
        " \x1b[34m   5 |\x1b[39m dup x\n" ++
        "      \x1b[34m|\x1b[39m\n" ++
        "\x1b[31m\x1b[1merror\x1b[39m\x1b[22m: " ++
        "Invalid push operand: `0xzz` must encode to 1..=32 bytes\n" ++
        "     \x1b[34m-->\x1b[39m \x1b[4mmain.evm:6\x1b[24m\n" ++
        "      \x1b[34m|\x1b[39m\n" ++
        " \x1b[34m   6 |\x1b[39m push 0xzz\n" ++
        "      \x1b[34m|\x1b[39m\n" ++
        "\x1b[31m\x1b[1merror\x1b[39m\x1b[22m: Syntax Error: Cannot parse\n" ++
        "     \x1b[34m-->\x1b[39m \x1b[4mmain.evm:7\x1b[24m\n" ++
        "      \x1b[34m|\x1b[39m\n" ++
        " \x1b[34m   7 |\x1b[39m : stop\n" ++
        "      \x1b[34m|\x1b[39m\n"⟩) ∧
    runOn (.ofSource "jump b\njump c\nd: jump d\njumpi b") [] =
      (1, ⟨.ofSource "jump b\njump c\nd: jump d\njumpi b",
        "EVM Assembler\n1. Read Files and Parse Lines\n  < main.evm\n" ++
        "2. Assemble\n  - 21 bytes, 1 labels\n3. Resolve Labels & Build Loader\n" ++
        "\x1b[31m\x1b[1merror\x1b[39m\x1b[22m: Undefined labels: b, c\n" ++
        "\x1b[31m\x1b[1merror\x1b[39m\x1b[22m: Undefined labels: b\n" ++
        "     \x1b[34m-->\x1b[39m \x1b[4mmain.evm:1\x1b[24m\n" ++
        "      \x1b[34m|\x1b[39m\n" ++
        " \x1b[34m   1 |\x1b[39m jump b\n" ++
        "      \x1b[34m|\x1b[39m\n" ++
        "\x1b[31m\x1b[1merror\x1b[39m\x1b[22m: Undefined labels: c\n" ++
        "     \x1b[34m-->\x1b[39m \x1b[4mmain.evm:2\x1b[24m\n" ++
        "      \x1b[34m|\x1b[39m\n" ++
        " \x1b[34m   2 |\x1b[39m jump c\n" ++
        "      \x1b[34m|\x1b[39m\n" ++
        "\x1b[31m\x1b[1merror\x1b[39m\x1b[22m: Undefined labels: b\n" ++
        "     \x1b[34m-->\x1b[39m \x1b[4mmain.evm:4\x1b[24m\n" ++
        "      \x1b[34m|\x1b[39m\n" ++
        " \x1b[34m   4 |\x1b[39m jumpi b\n" ++
        "      \x1b[34m|\x1b[39m\n"⟩) := by
  have hparse : Request.parse [] =
      .assemble ⟨["main.evm"], "main.evm.hex", false, none, false⟩ := by decide
  have hreadable : ∀ text, ∀ path ∈ ["main.evm"], ∃ found,
      (Disk.ofSource text).text? path = some found := by
    intro text path hpath
    obtain rfl := List.mem_singleton.mp hpath
    exact ⟨_, Disk.text?_of_read rfl⟩
  constructor
  · obtain ⟨hfaulty, -⟩ := diagnostics_are_exact hparse
      (hreadable "frob\ndup\nstop 1\nstop\ndup x\npush 0xzz\n: stop")
    rw [positions_ofSource] at hfaulty
    obtain ⟨_, hrun, rfl, -⟩ :=
      hfaulty ⟨⟨"main.evm", 2, "dup"⟩, by decide, .missingArgument, by decide⟩
    rw [hrun, Prod.mk.injEq, World.mk.injEq]
    exact ⟨rfl, rfl, by decide +kernel⟩
  · obtain ⟨-, hwaiting, -⟩ :=
      diagnostics_are_exact hparse (hreadable "jump b\njump c\nd: jump d\njumpi b")
    rw [positions_ofSource] at hwaiting
    have hparsed : Parsed ((Disk.ofSource "jump b\njump c\nd: jump d\njumpi b").lines ["main.evm"])
        [⟨none, some (.jump (some "b"))⟩, ⟨none, some (.jump (some "c"))⟩,
          ⟨some "d", some (.jump (some "d"))⟩, ⟨none, some (.jumpi (some "b"))⟩] :=
      .cons ⟨none, by decide⟩ (.cons ⟨none, by decide⟩ (.cons ⟨none, by decide⟩
        (.cons ⟨none, by decide⟩ .nil)))
    obtain ⟨_, hrun, rfl, -⟩ := hwaiting _ _ hparsed rfl (by decide)
    rw [hrun, Prod.mk.injEq, World.mk.injEq]
    exact ⟨rfl, rfl, by decide +kernel⟩

end BytecodeAssembler
