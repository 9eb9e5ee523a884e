import BytecodeAssembler.Proofs.Outcome
import BytecodeAssembler.Proofs.Rows
import BytecodeAssembler.Proofs.Tiling
import BytecodeAssembler.Proofs.Transcript

/-!
# The dump accounts for every byte of the runtime

A run that answers 0 and is asked for a listing prints it last. The listing has one row for each
line of the distinct files, in order, under one heading for each file that has lines
(`rowLines_eq`); it is known character by character (`listing_text`); and its rows account for the
runtime (`dump_accounts_for_runtime`).
-/

namespace BytecodeAssembler

open Text

/-! ### What is listed -/

theorem exists_lines {positions : List Position}
    (h : ∀ p ∈ positions, ∃ line, p.read = .ok line) :
    ∃ lines : List SourceLine, positions.map Position.read = lines.map .ok ∧
      lines.map SourceLine.position = positions ∧
      ∀ line ∈ lines, line.position.read = .ok line := by
  induction positions with
  | nil => exact ⟨[], rfl, rfl, by simp⟩
  | cons p positions ih =>
    obtain ⟨⟨line, hline⟩, hrest⟩ := List.forall_mem_cons.mp h
    obtain ⟨lines, hlines, hpositions, hread⟩ := ih hrest
    have hposition : line.position = p := by
      rw [Position.read] at hline
      split at hline
      · obtain rfl := Except.ok.inj hline
        rfl
      · cases hline
    refine ⟨line :: lines, ?_, ?_, List.forall_mem_cons.mpr ⟨by rw [hposition, hline], hread⟩⟩
    · rw [List.map_cons, List.map_cons, hline, hlines]
    · rw [List.map_cons, hposition, hpositions]

theorem faultsOf_map_ok (lines : List SourceLine) : faultsOf (lines.map .ok) = [] := by
  simp [faultsOf, List.filterMap_map]

theorem statementsOf_map_ok (lines : List SourceLine) :
    statementsOf (lines.map .ok) = lines := by
  simp [statementsOf, List.filterMap_map]

theorem Position.read_of_parse {p : Position} {statement : Statement} {comment : Option String}
    (h : Statement.parse p.text = .ok (statement, comment)) :
    p.read = .ok ⟨p, statement, comment⟩ := by
  rw [Position.read, h]

theorem parse_of_read {line : SourceLine} (h : line.position.read = .ok line) :
    Statement.parse line.position.text = .ok (line.statement, line.comment) := by
  cases hparse : Statement.parse line.position.text with
  | error fault =>
    rw [Position.read, hparse] at h
    cases h
  | ok result =>
    obtain ⟨statement, comment⟩ := result
    rw [Position.read_of_parse hparse] at h
    have hstatement : statement = line.statement := congrArg SourceLine.statement (Except.ok.inj h)
    have hcomment : comment = line.comment := congrArg SourceLine.comment (Except.ok.inj h)
    rw [hstatement, hcomment]

/-- A line is what is read where it stands. -/
theorem SourceLine.eq_of_read {line line' : SourceLine} (h : line.position.read = .ok line)
    (h' : line'.position.read = .ok line') (hposition : line.position = line'.position) :
    line = line' := by
  rw [hposition, h'] at h
  exact (Except.ok.inj h).symm

variable {d : Disk} {inputs : List String} {statements : List Statement} {s : Session}
  {product : Deployment}

/-- Lines that are all statements, each where it stands. -/
theorem exists_sourceLines (h : Parsed (d.lines inputs) statements) :
    ∃ lines : List SourceLine,
      Source.readAll (inputs.eraseDups.map d.source) = lines.map .ok ∧
      lines.map SourceLine.position =
        (inputs.eraseDups.flatMap fun path => (d.source path).positions) ∧
      (∀ line ∈ lines, line.position.read = .ok line) ∧
      lines.map SourceLine.statement = statements := by
  generalize hpositions : (inputs.eraseDups.flatMap fun path => (d.source path).positions) =
    positions
  have hreadAll : Source.readAll (inputs.eraseDups.map d.source) =
      positions.map Position.read := by
    rw [Source.readAll, List.flatMap_map, hpositions]
  have htexts : positions.map Position.text = d.lines inputs := by
    rw [← hpositions, List.map_flatMap]
    simp only [texts_positions, Disk.lines]
  obtain ⟨lines, hlines, hplaces, hread⟩ := exists_lines fun p hp => by
    have hmem : p.text ∈ d.lines inputs := htexts ▸ List.mem_map_of_mem hp
    obtain ⟨⟨statement, comment⟩, hparse⟩ := h.exists_of_mem hmem
    exact ⟨_, Position.read_of_parse hparse⟩
  refine ⟨lines, hreadAll.trans hlines, hplaces, hread, ?_⟩
  have hfaults : faultsOf (positions.map Position.read) = [] := by rw [hlines, faultsOf_map_ok]
  have hparsed := parsed_of_faultsOf hfaults
  rw [htexts, hlines, statementsOf_map_ok] at hparsed
  exact hparsed.unique h

/-- Lines that are all statements are assembled. -/
theorem build_sourceLines {sources : List Source} {lines : List SourceLine}
    (h : Source.readAll sources = lines.map .ok) : build sources = assemble lines := by
  have hfaults : faultsOf (Source.readAll sources) = [] := by rw [h, faultsOf_map_ok]
  rw [build_of_no_faults hfaults, h, statementsOf_map_ok]

theorem build_rows (h : Builds d inputs statements s product) {lines : List SourceLine}
    (hlines : Source.readAll (inputs.eraseDups.map d.source) = lines.map .ok)
    (hstatements : lines.map SourceLine.statement = statements) :
    (build (inputs.eraseDups.map d.source)).2 = some ⟨s, rowsFrom 0 lines, product⟩ ∧
      Session.Linked (stepsOf lines) s := by
  have happlied : Session.run {} (stepsOf lines) = (s, none) := by
    rw [stepsOf, hstatements]
    exact h.applied
  refine ⟨?_, Session.linked_nil.run happlied⟩
  rw [build_sourceLines hlines, assemble]
  rcases applyAll_spec {} #[] lines with ⟨t, rows, happly, hrun⟩ | ⟨_, t, fault, happly, hrun⟩
  · obtain rfl : s = t := congrArg Prod.fst (happlied.symm.trans hrun)
    have hrows : rows.toList = rowsFrom 0 lines := applyAll_rows Session.linked_nil happly
    rw [happly]
    simp only [finish, h.finished, hrows]
  · cases congrArg Prod.snd (happlied.symm.trans hrun)

/-- **What is built is listed by the rows of its lines.** -/
theorem build_listed (h : Builds d inputs statements s product) :
    ∃ lines, (build (inputs.eraseDups.map d.source)).2 = some ⟨s, rowsFrom 0 lines, product⟩ ∧
      lines.map SourceLine.position =
        (inputs.eraseDups.flatMap fun path => (d.source path).positions) ∧
      (∀ line ∈ lines, line.position.read = .ok line) ∧ Session.Linked (stepsOf lines) s := by
  obtain ⟨lines, hlines, hplaces, hread, hstatements⟩ := exists_sourceLines h.parsed
  obtain ⟨hbuild, hlinked⟩ := build_rows h hlines hstatements
  exact ⟨lines, hbuild, hplaces, hread, hlinked⟩

/-! ### Headings -/

namespace Listing

/-- The rows of a file under its heading. -/
def fileLines (code : Array UInt8) (rows : List Row) (path : String) : List Styled :=
  .text (heading path) ::
    (rows.filter fun row => row.line.position.path = path).map (rowLine code)

theorem rowLines_append {code : Array UInt8} {path : String} {group : List Row}
    (hgroup : ∀ row ∈ group, row.line.position.path = path) (rest : List Row) :
    rowLines code path (group ++ rest) = group.map (rowLine code) ++ rowLines code path rest := by
  induction group with
  | nil => rfl
  | cons row group ih =>
    obtain ⟨rfl, hrest⟩ := List.forall_mem_cons.mp hgroup
    rw [List.cons_append, rowLines, ih hrest]
    simp

theorem rowLines_group {code : Array UInt8} {path current : String} {group : List Row}
    (hne : group ≠ []) (hgroup : ∀ row ∈ group, row.line.position.path = path)
    (hpath : path ≠ current) (rest : List Row) :
    rowLines code current (group ++ rest) =
      .text (heading path) :: group.map (rowLine code) ++ rowLines code path rest := by
  cases group with
  | nil => exact absurd rfl hne
  | cons row group =>
    obtain ⟨rfl, hrest⟩ := List.forall_mem_cons.mp hgroup
    rw [List.cons_append, rowLines, rowLines_append hrest]
    simp [hpath]

theorem fileLines_append_of_forall {code : Array UInt8} {path : String} {group rest : List Row}
    (hgroup : ∀ row ∈ group, row.line.position.path = path)
    (hrest : ∀ row ∈ rest, row.line.position.path ≠ path) :
    fileLines code (group ++ rest) path = .text (heading path) :: group.map (rowLine code) := by
  have hall : group.filter (fun row => row.line.position.path = path) = group :=
    List.filter_eq_self.mpr fun row hrow => decide_eq_true (hgroup row hrow)
  have hnone : rest.filter (fun row => row.line.position.path = path) = [] :=
    List.filter_eq_nil_iff.mpr fun row hrow => by simpa using hrest row hrow
  rw [fileLines, List.filter_append, hall, hnone, List.append_nil]

theorem fileLines_append_of_ne {code : Array UInt8} {path : String} {group : List Row}
    (hgroup : ∀ row ∈ group, row.line.position.path ≠ path) (rest : List Row) :
    fileLines code (group ++ rest) path = fileLines code rest path := by
  have hnone : group.filter (fun row => row.line.position.path = path) = [] :=
    List.filter_eq_nil_iff.mpr fun row hrow => by simpa using hgroup row hrow
  rw [fileLines, fileLines, List.filter_append, hnone, List.nil_append]

/-- **The rows of distinct files stand under one heading for each file that has any.** -/
theorem rowLines_eq (code : Array UInt8) {positions : String → List Position}
    (hpositions : ∀ path, ∀ p ∈ positions path, p.path = path) {paths : List String}
    (hnodup : paths.Nodup) {current : String} (hcurrent : current ∉ paths) {rows : List Row}
    (hrows : rows.map (fun row => row.line.position) = paths.flatMap positions) :
    rowLines code current rows =
      (paths.filter fun path => positions path ≠ []).flatMap (fileLines code rows) := by
  induction paths generalizing current rows with
  | nil =>
    obtain rfl : rows = [] := by simpa using hrows
    rfl
  | cons path paths ih =>
    obtain ⟨hpath, hnodup⟩ := List.nodup_cons.mp hnodup
    obtain ⟨hfirst, hcurrent⟩ := not_or.mp (mt List.mem_cons.mpr hcurrent)
    rw [List.flatMap_cons, List.map_eq_append_iff] at hrows
    obtain ⟨group, rest, rfl, hgroup, hrest⟩ := hrows
    have hgroupPath : ∀ row ∈ group, row.line.position.path = path := by
      intro row hrow
      exact hpositions path _ (hgroup ▸ List.mem_map_of_mem hrow)
    have hrestPath : ∀ row ∈ rest, row.line.position.path ∈ paths := by
      intro row hrow
      have hmem : row.line.position ∈ paths.flatMap positions := hrest ▸ List.mem_map_of_mem hrow
      obtain ⟨other, hother, hp⟩ := List.mem_flatMap.mp hmem
      rwa [hpositions other _ hp]
    -- the files behind the first one have none of its rows
    have hbehind : ((paths.filter fun path => positions path ≠ []).flatMap
        (fileLines code (group ++ rest))) =
        (paths.filter fun path => positions path ≠ []).flatMap (fileLines code rest) := by
      refine List.flatMap_congr fun other hother => fileLines_append_of_ne ?_ rest
      rintro row hrow rfl
      exact hpath (hgroupPath row hrow ▸ List.mem_of_mem_filter hother)
    by_cases hempty : positions path = []
    · obtain rfl : group = [] := by simpa [hempty] using hgroup
      rw [List.filter_cons_of_neg (by simpa using hempty), hbehind]
      exact ih hnodup hcurrent hrest
    · have hne : group ≠ [] := by
        rintro rfl
        exact hempty hgroup.symm
      have hmine : fileLines code (group ++ rest) path =
          .text (heading path) :: group.map (rowLine code) := by
        refine fileLines_append_of_forall hgroupPath ?_
        rintro row hrow rfl
        exact hpath (hrestPath row hrow)
      rw [List.filter_cons_of_pos (by simpa using hempty), List.flatMap_cons, hbehind, hmine,
        rowLines_group hne hgroupPath (Ne.symm hfirst), ih hnodup hpath hrest]

end Listing

/-! ### The loader -/

/-- What the sweep finds is a part of the code, byte for byte. -/
theorem Instr.slice_of_mem_located {pc : Nat} {instrs : List Instr} {entry : Nat × Instr}
    (h : entry ∈ located pc instrs) :
    ∃ before after, flatten instrs = before ++ (entry.2.toBytes ++ after) ∧
      entry.1 = pc + before.length := by
  induction instrs generalizing pc with
  | nil => cases h
  | cons i instrs ih =>
    rcases List.mem_cons.mp h with rfl | h
    · exact ⟨[], flatten instrs, rfl, rfl⟩
    · obtain ⟨before, after, hbytes, hpc⟩ := ih h
      refine ⟨i.toBytes ++ before, after, ?_, ?_⟩
      · rw [flatten_cons, hbytes, List.append_assoc]
      · rw [hpc, List.length_append, length_toBytes, Nat.add_assoc]

theorem Instr.slice_of_mem_sweep {code : List UInt8} {entry : Nat × Instr}
    (h : entry ∈ sweep code) :
    entry.1 + entry.2.size ≤ code.length ∧
      (code.drop entry.1).take entry.2.size = entry.2.toBytes := by
  rw [← located_sweep] at h
  obtain ⟨before, after, hbytes, hpc⟩ := slice_of_mem_located h
  rw [flatten_sweep] at hbytes
  rw [Nat.zero_add] at hpc
  constructor
  · rw [hbytes, hpc, List.length_append, List.length_append, length_toBytes]
    omega
  · rw [hbytes, hpc, List.drop_left, ← length_toBytes, List.take_left]

/-! ### The dump -/

theorem Disk.text?_empty (d : Disk) : d.text? "" = none := by
  simp [Disk.text?, Disk.read, Disk.find, Disk.approach]

theorem Source.positions_eq_nil_iff (source : Source) :
    source.positions = [] ↔ source.texts = [] := by
  rw [← texts_positions, List.map_eq_nil_iff]

/-- The rows of files that were built stand under a heading for each file that has lines. -/
theorem rowLines_of_builds (h : Builds d inputs statements s product) {rows : List Row}
    (hrows : rows.map (fun row => row.line.position) =
      inputs.eraseDups.flatMap fun path => (d.source path).positions) (code : Array UInt8) :
    Listing.rowLines code "" rows =
      (inputs.eraseDups.filter fun path => (d.source path).texts ≠ []).flatMap
        (Listing.fileLines code rows) := by
  have hempty : "" ∉ inputs.eraseDups := by
    intro hmem
    obtain ⟨text, htext⟩ := h.readable "" (List.mem_eraseDups.mp hmem)
    rw [Disk.text?_empty] at htext
    cases htext
  have hpositions : ∀ path, ∀ p ∈ (d.source path).positions, p.path = path := by
    intro path p hp
    obtain ⟨entry, -, rfl⟩ := List.mem_map.mp hp
    rfl
  have hgroups := Listing.rowLines_eq code hpositions (nodup_eraseDups inputs) hempty hrows
  simpa only [ne_eq, Source.positions_eq_nil_iff] using hgroups

theorem Listing.printed_fileLines {code : Array UInt8} {rows : List Row}
    (hoccupied : ∀ row ∈ rows, row.start < row.stop ↔ ¬ row.line.statement.isEmpty)
    (path : String) :
    printed (fileLines code rows path) = headingText path ++
      String.join ((rows.filter fun row => row.line.position.path = path).map fun row =>
        row.frontText code ++ (row.line.statement.listed row.line.comment).ansi ++ "\n") := by
  rw [fileLines, ← List.singleton_append, printed_append, printed_heading, printed, List.map_map]
  refine congrArg _ (congrArg String.join (List.map_congr_left fun row hrow => ?_))
  rw [← printed_rowLine (hoccupied row (List.mem_of_mem_filter hrow)), printed_cons, printed_nil,
    String.append_empty]
  rfl

/-- **The listing of files that were built**, character by character. -/
theorem listing_text {o : Options} {p : Product}
    (h : Builds d o.inputs statements s p.deployment)
    (hrows : p.rows.map (fun row => row.line.position) =
      o.inputs.eraseDups.flatMap fun path => (d.source path).positions)
    (hoccupied : ∀ row ∈ p.rows, row.start < row.stop ↔ ¬ row.line.statement.isEmpty) :
    p.listing o = Listing.text (if o.runtimeOnly then none else some p.deployment.loader)
      (o.inputs.eraseDups.filter fun path => (d.source path).texts ≠ []) p.rows
      (fun row => row.frontText p.deployment.runtime ++
        (row.line.statement.listed row.line.comment).ansi ++ "\n") := by
  rw [Product.listing, Listing.printed_lines, rowLines_of_builds h hrows, printed_flatMap,
    Listing.text]
  simp only [Listing.printed_fileLines hoccupied]

/-- A run that answers 0 and is asked for a listing prints it last. -/
theorem printed_listing {disk : Disk} {arguments : List String} {o : Options} {p : Product}
    (hparse : Request.parse arguments = .assemble o) (hdump : o.dump = true)
    (hzero : (runOn disk arguments).1 = 0)
    (hproduct : (build (o.inputs.eraseDups.map disk.source)).2 = some p) :
    ∃ before, (runOn disk arguments).2.printed = before ++ p.listing o := by
  have hends := run_ends disk hparse
  rw [hzero] at hends
  obtain ⟨_, _, _, hbuilds, hwrite, hwrites, -⟩ := hends.exists_delivered
  have hall : ∀ output ∈ p.outputs o, disk.Writable output.1 := by
    rw [Product.outputs_eq]
    exact forall_outputs.mpr ⟨hwrite, hwrites⟩
  have hreads := does_readSources [] hbuilds.readable
  rw [List.nil_append] at hreads
  obtain ⟨text, hdeliver⟩ := does_deliver hall
  obtain ⟨before, hdoes⟩ := does_assembleFiles_built hreads hproduct hdeliver
  have hrun := hdoes ""
  refine ⟨before ++ text, ?_⟩
  rw [runOn, run, hparse]
  show ((assembleFiles World.host o).run ⟨disk, ""⟩).2.printed = _
  rw [hrun, Product.dumped, if_pos hdump, String.empty_append, String.append_assoc]

/-- **The dump accounts for every byte of the runtime.** A run that answers 0 and is asked for a
listing prints it last, behind the loader's if that is part of the payload. It has one row for each
line of the distinct files in the order of their first mention, each line as it is read, and the
rows of a file stand under its heading, if it has any. A row shows nothing in front if its statement
is empty, and else the offset of its span and the first five bytes there in the runtime, with two
dots if there are more; then the number of its line, and its source column. The rows account for the
runtime. What is shown of the loader are parts of the loader. -/
theorem dump_accounts_for_runtime {disk : Disk} {arguments : List String} {o : Options}
    (hparse : Request.parse arguments = .assemble o) (hdump : o.dump = true)
    (hzero : (runOn disk arguments).1 = 0) :
    ∃ before rows statements s product, Builds disk o.inputs statements s product ∧
      (runOn disk arguments).2.printed = before ++
        Listing.text (if o.runtimeOnly then none else some product.loader)
          (o.inputs.eraseDups.filter fun path => (disk.source path).texts ≠ []) rows
          (fun row =>
            (if row.line.statement.isEmpty then "                       "
              else "[" ++ offsetText row.start ++ "] " ++
                bytesText (product.runtime.extract row.start row.stop).toList ++ " ") ++
            "| " ++ numberText row.line.position.number ++ ": " ++
            (row.line.statement.listed row.line.comment).ansi ++ "\n") ∧
      rows.map (fun row => row.line.position) =
        (o.inputs.eraseDups.flatMap fun path => (disk.source path).positions) ∧
      (∀ row ∈ rows, row.line.position.read = .ok row.line) ∧
      Accounts rows product.runtime s.labels.defined.toList ∧
      ∀ entry ∈ Instr.sweep product.loader, entry.1 + entry.2.size ≤ product.loader.length ∧
        (product.loader.drop entry.1).take entry.2.size = entry.2.toBytes := by
  have hends := run_ends disk hparse
  rw [hzero] at hends
  obtain ⟨statements, s, product, hbuilds, -⟩ := hends.exists_delivered
  obtain ⟨lines, hproduct, hplaces, hread, hlinked⟩ := build_listed hbuilds
  obtain ⟨hruntime, -⟩ := Session.finalize_eq_ok hbuilds.finished
  obtain ⟨hpending, hcode⟩ := Session.runtime_eq_ok hruntime
  have hrows : (rowsFrom 0 lines).map (fun row => row.line.position) =
      (o.inputs.eraseDups.flatMap fun path => (disk.source path).positions) := by
    rw [map_rowsFrom, hplaces]
  have haccounts : Accounts (rowsFrom 0 lines) product.runtime s.labels.defined.toList := by
    rw [hcode]
    exact accounts_rowsFrom hlinked hpending
  obtain ⟨before, hprinted⟩ := printed_listing hparse hdump hzero hproduct
  rw [listing_text hbuilds hrows haccounts.occupied] at hprinted
  refine ⟨before, rowsFrom 0 lines, statements, s, product, hbuilds, hprinted, hrows, ?_, haccounts,
    fun entry => Instr.slice_of_mem_sweep⟩
  intro row hrow
  have hmem : row.line ∈ (rowsFrom 0 lines).map Row.line := List.mem_map_of_mem hrow
  rw [map_line_rowsFrom] at hmem
  exact hread _ hmem

/-- A line that places a label and jumps to it, and one that holds a comment alone. -/
theorem builds_loop_idle : Builds (.ofSource "loop: jump loop\n; idle") ["main.evm"]
    [⟨some "loop", some (.jump (some "loop"))⟩, ⟨none, none⟩]
    ⟨#[0x5B, 0x62, 0, 0, 0, 0x56], ⟨#[("loop", 0)], #[]⟩⟩
    ⟨[0x38, 0x60, 0x0B, 0x60, 0, 0x39, 0x60, 0x06, 0x60, 0, 0xF3],
      #[0x5B, 0x62, 0, 0, 0, 0x56]⟩ where
  readable := by
    intro path hmem
    obtain rfl := List.mem_singleton.mp hmem
    exact ⟨_, Disk.text?_of_read rfl⟩
  parsed := .cons ⟨none, by decide⟩ (.cons ⟨some " idle", by decide⟩ .nil)
  applied := by decide
  finished := by decide

/-- The listing of a line that places a label and jumps to it, and of a comment. -/
theorem dump_accounts_for_runtime_loop :
    (runOn (.ofSource "loop: jump loop\n; idle") ["-d"]).1 = 0 ∧
    (∃ rows, rows.map (fun row => row.line.position) =
        [⟨"main.evm", 1, "loop: jump loop"⟩, ⟨"main.evm", 2, "; idle"⟩] ∧
      rows.map (fun row => (row.start, row.stop)) = [(0, 6), (6, 6)] ∧
      Accounts rows #[0x5B, 0x62, 0, 0, 0, 0x56] [("loop", 0)]) ∧
    ∃ before, (runOn (.ofSource "loop: jump loop\n; idle") ["-d"]).2.printed = before ++
      "-----------------------+------[loader]-----------------------------------------\n" ++
      "[0000] 38               |         \x1b[31mcodesize\x1b[39m\n" ++
      "[0001] 60 0B            |         \x1b[31mpush1  \x1b[33m0x0b\x1b[39m\n" ++
      "[0003] 60 00            |         \x1b[31mpush1  \x1b[33m0x00\x1b[39m\n" ++
      "[0005] 39               |         \x1b[31mcodecopy\x1b[39m\n" ++
      "[0006] 60 06            |         \x1b[31mpush1  \x1b[33m0x06\x1b[39m\n" ++
      "[0008] 60 00            |         \x1b[31mpush1  \x1b[33m0x00\x1b[39m\n" ++
      "[000A] F3               |         \x1b[31mreturn\x1b[39m\n" ++
      "-----------------------+------[main.evm]-------------------------------------\n" ++
      "[0000] 5B 62 00 00 00.. |    1: \x1b[32mloop:\x1b[39m \x1b[31mjump   \x1b[34mloop\x1b[39m \n" ++
      "                       |    2:  ; idle\n" ++
      "-----------------------+-----------------------------------------------------\n" := by
  have hzero : (runOn (.ofSource "loop: jump loop\n; idle") ["-d"]).1 = 0 := by decide +kernel
  have htext : (Disk.ofSource "loop: jump loop\n; idle").text? "main.evm" =
      some "loop: jump loop\n; idle" := Disk.text?_of_read rfl
  have hpositions : ((Disk.ofSource "loop: jump loop\n; idle").source "main.evm").positions =
      [⟨"main.evm", 1, "loop: jump loop"⟩, ⟨"main.evm", 2, "; idle"⟩] := by
    rw [Disk.source, htext]
    decide
  obtain ⟨before, rows, _, s, product, hbuilds, hprinted, hrows, hread, haccounts, -⟩ :=
    dump_accounts_for_runtime (by decide : Request.parse ["-d"] =
      .assemble ⟨["main.evm"], "main.evm.hex", false, none, true⟩) rfl hzero
  obtain ⟨rfl, rfl⟩ := builds_loop_idle.unique hbuilds
  have hlist : rows.map (fun row => row.line.position) =
      [⟨"main.evm", 1, "loop: jump loop"⟩, ⟨"main.evm", 2, "; idle"⟩] :=
    hrows.trans ((List.flatMap_singleton _ _).trans hpositions)
  obtain ⟨first, rest, rfl, hfirst, hrest⟩ := List.map_eq_cons_iff.mp hlist
  obtain ⟨second, rfl, hsecond⟩ := List.map_eq_singleton_iff.mp hrest
  have hfirstLine : first.line = ⟨⟨"main.evm", 1, "loop: jump loop"⟩,
      ⟨some "loop", some (.jump (some "loop"))⟩, none⟩ :=
    SourceLine.eq_of_read (hread first (by simp)) (by decide) hfirst
  have hsecondLine : second.line = ⟨⟨"main.evm", 2, "; idle"⟩, ⟨none, none⟩, some " idle"⟩ :=
    SourceLine.eq_of_read (hread second (by simp)) (by decide) hsecond
  -- the second line takes none of the six bytes
  obtain ⟨hstart, -, hmiddle, hle, hstop⟩ := haccounts.tiles
  have hidle : ¬ second.start < second.stop := by
    rw [haccounts.occupied second (by simp), hsecondLine]
    decide
  obtain ⟨line, start, stop⟩ := first
  obtain ⟨line', start', stop'⟩ := second
  obtain rfl : start = 0 := hstart
  obtain rfl : stop' = 6 := hstop
  obtain rfl : start' = 6 := Nat.le_antisymm hle (Nat.not_lt.mp hidle)
  obtain rfl : stop = 6 := hmiddle.symm
  subst hfirstLine hsecondLine
  refine ⟨hzero, ⟨_, hlist, rfl, haccounts⟩, before, ?_⟩
  rw [hprinted]
  simp only [String.append_assoc]
  refine congrArg (before ++ ·) ?_
  decide +kernel

end BytecodeAssembler
