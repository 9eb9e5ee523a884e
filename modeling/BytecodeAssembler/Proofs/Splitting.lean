import BytecodeAssembler.Proofs.LineEnds
import BytecodeAssembler.Proofs.Overwriting

/-!
# Source in one file and in many

What is built depends on the files only through the lines of their distinct texts, one text behind
another (`Disk.lines_of_holds`). So two runs whose texts come to the same, carriage returns aside,
build the same (`builds_iff`), and if their outputs lead to the same places then they answer the
same and change their disks alike (`sameRun_of_builds_iff`).
-/

namespace BytecodeAssembler

open Text

/-! ### The same statements -/

theorem parse_map_fst_eq_iff {line : String} {statement : Statement} :
    (Statement.parse line).map Prod.fst = .ok statement ↔
      ∃ comment, Statement.parse line = .ok (statement, comment) := by
  cases Statement.parse line with
  | error fault => simp [Except.map]
  | ok result =>
    obtain ⟨found, comment⟩ := result
    simp [Except.map]

/-- Lines are read alike if they differ in nothing but comments. -/
theorem parsed_congr {lines lines' : List String}
    (h : List.Forall₂ (fun line line' => (Statement.parse line').map Prod.fst =
      (Statement.parse line).map Prod.fst) lines lines') (statements : List Statement) :
    Parsed lines statements ↔ Parsed lines' statements := by
  induction h generalizing statements with
  | nil => rfl
  | @cons line line' lines lines' hline _ ih =>
    cases statements with
    | nil => simp [Parsed]
    | cons statement statements =>
      have hrest := ih statements
      rw [Parsed, Parsed] at hrest ⊢
      rw [List.forall₂_cons, List.forall₂_cons, ← parse_map_fst_eq_iff, ← parse_map_fst_eq_iff,
        hline, hrest]

/-! ### The same lines -/

/-- The files hold the texts. -/
def Disk.Holds (d : Disk) (paths texts : List String) : Prop :=
  List.Forall₂ (fun path text => d.text? path = some text) paths texts

section Holds

variable {d d' : Disk} {paths paths' texts texts' : List String}

theorem Disk.Holds.exists_text (h : d.Holds paths texts) {path : String} (hmem : path ∈ paths) :
    ∃ text, d.text? path = some text := by
  induction h with
  | nil => cases hmem
  | cons htext _ ih =>
    rcases List.mem_cons.mp hmem with rfl | hrest
    · exact ⟨_, htext⟩
    · exact ih hrest

theorem Disk.flatMap_texts_of_holds (h : d.Holds paths texts)
    (hclosed : ∀ text ∈ texts, Closed text.toList) :
    (paths.flatMap fun path => (d.source path).texts) =
      (Text.lines (String.join texts).toList).map String.ofList := by
  induction h with
  | nil => rfl
  | @cons path text paths texts htext _ ih =>
    obtain ⟨hfirst, hrest⟩ := List.forall_mem_cons.mp hclosed
    have hsource : (d.source path).texts = (Text.lines text.toList).map String.ofList := by
      rw [Disk.source, htext]
      rfl
    rw [List.flatMap_cons, ih hrest, hsource, String.join_cons, String.toList_append,
      lines_append hfirst, List.map_append]

/-- **The lines of closed files are those of their texts, one behind another.** -/
theorem Disk.lines_of_holds (h : d.Holds paths.eraseDups texts)
    (hclosed : ∀ text ∈ texts, Closed text.toList) :
    d.lines paths = (Text.lines (String.join texts).toList).map String.ofList :=
  Disk.flatMap_texts_of_holds h hclosed

theorem closed_join (h : ∀ text ∈ texts, Closed text.toList) :
    Closed (String.join texts).toList := by
  induction texts with
  | nil => exact Or.inl rfl
  | cons text texts ih =>
    obtain ⟨hfirst, hrest⟩ := List.forall_mem_cons.mp h
    rw [String.join_cons, String.toList_append]
    exact hfirst.append (ih hrest)

theorem returned_join
    (h : List.Forall₂ (fun text text' => Returned text.toList text'.toList) texts texts') :
    Returned (String.join texts).toList (String.join texts').toList := by
  induction h with
  | nil => exact .nil
  | cons hfirst _ ih =>
    rw [String.join_cons, String.join_cons, String.toList_append, String.toList_append]
    exact hfirst.append ih

/-- The texts of the distinct files, one behind another, are a text with carriage returns in front
of some of its line feeds, and each of them is closed. -/
def Disk.Presents (d : Disk) (paths : List String) (cs : List Char) : Prop :=
  ∃ texts, d.Holds paths.eraseDups texts ∧ (∀ text ∈ texts, Closed text.toList) ∧
    Returned cs (String.join texts).toList

variable {cs : List Char}

theorem presents_parts (hholds : d.Holds paths.eraseDups texts')
    (hreturned : List.Forall₂ (fun text text' => Returned text.toList text'.toList) texts texts')
    (hclosed : ∀ text ∈ texts, Closed text.toList) :
    d.Presents paths (String.join texts).toList := by
  refine ⟨texts', hholds, ?_, returned_join hreturned⟩
  clear hholds
  induction hreturned with
  | nil => exact hclosed
  | cons hfirst _ ih =>
    obtain ⟨htext, hrest⟩ := List.forall_mem_cons.mp hclosed
    exact List.forall_mem_cons.mpr ⟨hfirst.closed htext, ih hrest⟩

theorem presents_whole {whole text : String} (hpaths : paths.eraseDups = [whole])
    (htext : d.text? whole = some text) (hreturned : Returned cs text.toList) (hcs : Closed cs) :
    d.Presents paths cs := by
  refine ⟨[text], ?_, List.forall_mem_singleton.mpr (hreturned.closed hcs), ?_⟩
  · rw [hpaths]
    exact .cons htext .nil
  · rwa [String.join_cons, String.join_nil, String.append_empty]

theorem Disk.Presents.parsed_iff (h : d.Presents paths cs) (hcs : Closed cs)
    (statements : List Statement) :
    Parsed (d.lines paths) statements ↔ Parsed ((Text.lines cs).map String.ofList) statements := by
  obtain ⟨texts, hholds, hclosed, hreturned⟩ := h
  rw [Disk.lines_of_holds hholds hclosed]
  refine (parsed_congr ?_ statements).symm
  rw [List.forall₂_map_left_iff, List.forall₂_map_right_iff]
  exact (hreturned.lines hcs).imp fun _ _ => Statement.parse_returnedLine

theorem Disk.Presents.readable (h : d.Presents paths cs) :
    ∀ path ∈ paths, ∃ text, d.text? path = some text := by
  obtain ⟨texts, hholds, -⟩ := h
  exact fun path hmem => hholds.exists_text (List.mem_eraseDups.mpr hmem)

/-- **Files that present one text build the same.** -/
theorem builds_iff (h : d.Presents paths cs) (h' : d'.Presents paths' cs) (hcs : Closed cs)
    (statements : List Statement) (s : Session) (product : Deployment) :
    Builds d paths statements s product ↔ Builds d' paths' statements s product := by
  have hparsed : Parsed (d.lines paths) statements ↔ Parsed (d'.lines paths') statements :=
    (h.parsed_iff hcs statements).trans (h'.parsed_iff hcs statements).symm
  constructor
  · intro hbuilds
    exact ⟨h'.readable, hparsed.mp hbuilds.parsed, hbuilds.applied, hbuilds.finished⟩
  · intro hbuilds
    exact ⟨h.readable, hparsed.mpr hbuilds.parsed, hbuilds.applied, hbuilds.finished⟩

end Holds

/-! ### The same changes -/

namespace Disk

/-- What two disks have become: each place is on both as it was, or holds on both one file. -/
def ChangedAlike (d left d' left' : Disk) : Prop :=
  ∀ place, (left.entry? place = d.entry? place ∧ left'.entry? place = d'.entry? place) ∨
    ∃ contents, left.entry? place = some (.file contents) ∧
      left'.entry? place = some (.file contents)

theorem ChangedAlike.trans {d mid left d' mid' left' : Disk} (h : ChangedAlike d mid d' mid')
    (h' : ChangedAlike mid left mid' left') : ChangedAlike d left d' left' := by
  intro place
  rcases h' place with ⟨hleft, hleft'⟩ | hfile
  · rw [hleft, hleft']
    exact h place
  · exact Or.inr hfile

/-- A path leads to one place on both disks. -/
def SameDestination (d d' : Disk) (path : String) : Prop :=
  ∀ dest, d'.destination path = .ok dest ↔ d.destination path = .ok dest

namespace SameDestination

variable {d d' : Disk} {path other text : String}

theorem writable_iff (h : SameDestination d d' path) : d'.Writable path ↔ d.Writable path := by
  simp only [Writable, h _]

theorem regular_iff (h : SameDestination d d' path) : d'.Regular path ↔ d.Regular path := by
  simp only [Regular, ne_eq, h _]

theorem sameFile_iff (h : SameDestination d d' path) (hother : SameDestination d d' other) :
    d'.SameFile path other ↔ d.SameFile path other := by
  simp only [SameFile, h _, hother _]

theorem written (h : SameDestination d d' path) (text : String) :
    SameDestination (d.written other text) (d'.written other text) path := by
  intro dest
  rw [destination_written_iff, destination_written_iff, h dest]

/-- Writing one text to one path changes both disks alike. -/
theorem changedAlike (h : SameDestination d d' path) (text : String) :
    ChangedAlike d (d.written path text) d' (d'.written path text) := by
  intro place
  by_cases hplace : d.destination path = .ok (.file place)
  · have hplace' := (h _).mpr hplace
    refine Or.inr ⟨text.toUTF8, ?_, ?_⟩
    · rw [written_of_file hplace, entry?_put_file hplace, if_pos rfl]
    · rw [written_of_file hplace', entry?_put_file hplace', if_pos rfl]
  · refine Or.inl ⟨?_, ?_⟩
    · by_contra hchanged
      exact hplace (entry?_written_of_ne hchanged).1
    · by_contra hchanged
      exact hplace ((h _).mp (entry?_written_of_ne hchanged).1)

end SameDestination

theorem changedAlike_writtenAll {d d' : Disk} {outputs : List (String × String)}
    (h : ∀ output ∈ outputs, SameDestination d d' output.1) :
    ChangedAlike d (d.writtenAll outputs) d' (d'.writtenAll outputs) := by
  induction outputs generalizing d d' with
  | nil => exact fun place => Or.inl ⟨rfl, rfl⟩
  | cons output outputs ih =>
    obtain ⟨hfirst, hrest⟩ := List.forall_mem_cons.mp h
    exact (hfirst.changedAlike output.2).trans (ih fun next hnext => (hrest next hnext).written _)

end Disk

/-! ### The same runs -/

/-- Two runs answer the same and change their disks alike; if they answer 0 then their outputs read
the same. -/
structure SameRun (d d' : Disk) (o : Options) (ran ran' : Nat × World) : Prop where
  code : ran'.1 = ran.1
  changed : Disk.ChangedAlike d ran.2.disk d' ran'.2.disk
  outputs : ran.1 = 0 → ∀ path, path = o.output ∨ path ∈ o.symbols → d.Regular path →
    ran'.2.disk.read path = ran.2.disk.read path

theorem eq_of_append_eq {α : Type} {P : α → Prop} {as bs as' bs' : List α}
    (h : as ++ bs = as' ++ bs') (has : ∀ a ∈ as, P a) (hbs : ∀ b ∈ bs.head?, ¬ P b)
    (has' : ∀ a ∈ as', P a) (hbs' : ∀ b ∈ bs'.head?, ¬ P b) : as = as' := by
  induction as generalizing as' with
  | nil =>
    cases as' with
    | nil => rfl
    | cons a' as' =>
      rw [List.nil_append] at h
      exact absurd (has' a' List.mem_cons_self) (hbs a' (by simp [h]))
  | cons a as ih =>
    obtain ⟨hfirst, hrest⟩ := List.forall_mem_cons.mp has
    cases as' with
    | nil =>
      rw [List.nil_append] at h
      exact absurd hfirst (hbs' a (by simp [← h]))
    | cons a' as' =>
      obtain ⟨rfl, htail⟩ := List.cons.inj h
      rw [ih htail hrest fun b hb => has' b (List.mem_cons_of_mem _ hb)]

namespace Ends

variable {d left : Disk} {o : Options} {code : Nat}

/-- What a run has written: nothing if nothing is built, and else all in front of the first path
that cannot be written to. -/
theorem writes (h : Ends d o code left) :
    (left = d ∧ ∀ statements s product, ¬ Builds d o.inputs statements s product) ∨
    ∃ statements s product done rest, Builds d o.inputs statements s product ∧
      s.outputs product o = done ++ rest ∧ (∀ output ∈ done, d.Writable output.1) ∧
      (∀ output ∈ rest.head?, ¬ d.Writable output.1) ∧ left = d.writtenAll done := by
  cases h with
  | stopped hstops => exact Or.inl ⟨rfl, fun _ _ _ => hstops.not_builds⟩
  | delivered hbuilds hall =>
    exact Or.inr ⟨_, _, _, _, [], hbuilds, (List.append_nil _).symm, hall, by simp, rfl⟩
  | refused hbuilds houtputs hdone hrefused =>
    exact Or.inr ⟨_, _, _, _, _, hbuilds, houtputs, hdone, by simpa using hrefused, rfl⟩

end Ends

section SameRun

variable {d d' : Disk} {o : Options} {inputs' : List String}
  (hbuilds : ∀ statements s product,
    Builds d o.inputs statements s product ↔ Builds d' inputs' statements s product)
  (hdest : ∀ path, path = o.output ∨ path ∈ o.symbols → Disk.SameDestination d d' path)
include hbuilds hdest

theorem Ends.code_eq {code code' : Nat} {left left' : Disk} (h : Ends d o code left)
    (h' : Ends d' { o with inputs := inputs' } code' left') : code' = code := by
  have hzero : code' = 0 ↔ code = 0 := by
    rw [h.code_eq_zero_iff, h'.code_eq_zero_iff]
    refine and_congr ?_ (and_congr (hdest _ (Or.inl rfl)).writable_iff ?_)
    · simp only [hbuilds]
    · exact forall₂_congr fun path hpath => (hdest path (Or.inr hpath)).writable_iff
  by_cases hcode : code = 0
  · rw [hcode, hzero.mpr hcode]
  · rw [h.code_eq_one hcode, h'.code_eq_one (mt hzero.mp hcode)]

theorem Ends.changedAlike {code code' : Nat} {left left' : Disk} (h : Ends d o code left)
    (h' : Ends d' { o with inputs := inputs' } code' left') :
    Disk.ChangedAlike d left d' left' := by
  have houtputs : ∀ (s : Session) (product : Deployment), ∀ output ∈ s.outputs product o,
      Disk.SameDestination d d' output.1 := fun s product =>
    forall_outputs.mpr ⟨hdest _ (Or.inl rfl), fun path hpath => hdest path (Or.inr hpath)⟩
  rcases h.writes with ⟨rfl, hnot⟩ | ⟨_, s, product, done, rest, hb, hdone, hall, hrest, rfl⟩
  · rcases h'.writes with ⟨rfl, -⟩ | ⟨_, s', product', done', rest', hb', -⟩
    · exact fun place => Or.inl ⟨rfl, rfl⟩
    · exact absurd ((hbuilds _ _ _).mpr hb') (hnot _ _ _)
  · rcases h'.writes with ⟨rfl, hnot⟩ |
      ⟨_, s', product', done', rest', hb', hdone', hall', hrest', rfl⟩
    · exact absurd ((hbuilds _ _ _).mp hb) (hnot _ _ _)
    · obtain ⟨rfl, rfl⟩ := ((hbuilds _ _ _).mpr hb').unique hb
      have hsame := houtputs s' product'
      have hboth : done ++ rest = done' ++ rest' := hdone.symm.trans hdone'
      rw [hdone] at hsame
      have hsame' := hsame
      rw [hboth] at hsame'
      -- both runs end at the same path
      obtain rfl : done = done' := by
        refine eq_of_append_eq hboth hall hrest (fun output hmem => ?_) fun output hmem => ?_
        · exact (hsame' output (List.mem_append_left _ hmem)).writable_iff.mp (hall' output hmem)
        · have hnext := hsame' output (List.mem_append_right _ (List.mem_of_mem_head? hmem))
          exact mt hnext.writable_iff.mpr (hrest' output hmem)
      exact Disk.changedAlike_writtenAll fun output hmem =>
        hsame output (List.mem_append_left _ hmem)

theorem Ends.read_eq {left left' : Disk} (h : Ends d o 0 left)
    (h' : Ends d' { o with inputs := inputs' } 0 left') {path : String}
    (hpath : path = o.output ∨ path ∈ o.symbols) (hregular : d.Regular path) :
    left'.read path = left.read path := by
  obtain ⟨_, s, product, hb, hwrite, hwrites, rfl⟩ := h.exists_delivered
  obtain ⟨_, s', product', hb', hwrite', hwrites', rfl⟩ := h'.exists_delivered
  obtain ⟨rfl, rfl⟩ := ((hbuilds _ _ _).mpr hb').unique hb
  have hregular' := (hdest path hpath).regular_iff.mpr hregular
  have hsame : ∀ symbols ∈ o.symbols, d'.SameFile o.output symbols ↔ d.SameFile o.output symbols :=
    fun symbols hsymbols => (hdest _ (Or.inl rfl)).sameFile_iff (hdest _ (Or.inr hsymbols))
  rcases hpath with rfl | hpath
  · by_cases hshared : ∃ symbols ∈ o.symbols, d.SameFile o.output symbols
    · obtain ⟨symbols, hsymbols, hfile⟩ := hshared
      rw [read_payload_of_sameFile hsymbols hfile]
      exact read_payload_of_sameFile hsymbols ((hsame symbols hsymbols).mpr hfile)
    · have hapart : ∀ symbols ∈ o.symbols, ¬ d.SameFile o.output symbols := by
        simpa using hshared
      rw [read_payload hwrite hregular hapart]
      exact read_payload hwrite' hregular' fun symbols hsymbols =>
        mt (hsame symbols hsymbols).mp (hapart symbols hsymbols)
  · rw [read_symbolMap hpath (hwrites path hpath) hregular]
    exact read_symbolMap hpath (hwrites' path hpath) hregular'

theorem sameRun_of_builds_iff {arguments arguments' : List String}
    (hparse : Request.parse arguments = .assemble o)
    (hparse' : Request.parse arguments' = .assemble { o with inputs := inputs' }) :
    SameRun d d' o (runOn d arguments) (runOn d' arguments') := by
  have h := run_ends d hparse
  have h' := run_ends d' hparse'
  have hcode := Ends.code_eq hbuilds hdest h h'
  refine ⟨hcode, Ends.changedAlike hbuilds hdest h h', fun hzero path hpath hregular => ?_⟩
  rw [hcode, hzero] at h'
  rw [hzero] at h
  exact Ends.read_eq hbuilds hdest h h' hpath hregular

end SameRun

/-- **Splitting the source over files does not change the program.** Take closed texts, and a run on
files that hold them, one text in each, however often a file is named again and with whatever
carriage returns in front of line feeds. A run with the same options does the same if it is on one
file that holds the texts one behind another, and if it is again on files that hold one text each,
whichever of them are named again and wherever there are carriage returns. -/
theorem splitting_keeps_run {d d' : Disk} {o : Options} {arguments arguments' : List String}
    {inputs' texts returned : List String}
    (hparse : Request.parse arguments = .assemble o)
    (hparse' : Request.parse arguments' = .assemble { o with inputs := inputs' })
    (hdest : ∀ path, path = o.output ∨ path ∈ o.symbols → Disk.SameDestination d d' path)
    (hclosed : ∀ text ∈ texts, Closed text.toList)
    (hholds : d.Holds o.inputs.eraseDups returned)
    (hreturned : List.Forall₂ (fun text text' => Returned text.toList text'.toList) texts
      returned) :
    (∀ whole text, inputs'.eraseDups = [whole] → d'.text? whole = some text →
      Returned (String.join texts).toList text.toList →
      SameRun d d' o (runOn d arguments) (runOn d' arguments')) ∧
    ∀ returned', d'.Holds inputs'.eraseDups returned' →
      List.Forall₂ (fun text text' => Returned text.toList text'.toList) texts returned' →
      SameRun d d' o (runOn d arguments) (runOn d' arguments') := by
  have hjoin := closed_join hclosed
  have hparts := presents_parts hholds hreturned hclosed
  refine ⟨fun whole text hwhole htext hend => ?_, fun returned' hholds' hreturned' => ?_⟩
  · have hpresents := presents_whole hwhole htext hend hjoin
    exact sameRun_of_builds_iff (builds_iff hparts hpresents hjoin) hdest hparse hparse'
  · have hpresents := presents_parts hholds' hreturned' hclosed
    exact sameRun_of_builds_iff (builds_iff hparts hpresents hjoin) hdest hparse hparse'

/-- A program in two files, the first of them named twice, and the program in one file with a
carriage return. -/
theorem splitting_keeps_run_loop :
    (runOn ((Disk.ofSource "loop:\n").written "b" "jump loop\n") ["main.evm", "b", "main.evm"]).1 =
      0 ∧
    (runOn ((Disk.ofSource "loop:\n").written "b" "loop:\r\njump loop\n") ["b"]).1 = 0 ∧
    (runOn ((Disk.ofSource "loop:\n").written "b" "loop:\r\njump loop\n") ["b"]).2.disk.read
        "main.evm.hex" =
      (runOn ((Disk.ofSource "loop:\n").written "b" "jump loop\n")
        ["main.evm", "b", "main.evm"]).2.disk.read "main.evm.hex" := by
  have hdest : ∀ path, Disk.SameDestination ((Disk.ofSource "loop:\n").written "b" "jump loop\n")
      ((Disk.ofSource "loop:\n").written "b" "loop:\r\njump loop\n") path := by
    intro path dest
    rw [Disk.destination_written_iff, Disk.destination_written_iff]
  have hregular : ((Disk.ofSource "loop:\n").written "b" "jump loop\n").Regular "main.evm.hex" :=
    Disk.regular_written_iff.mpr (regular_ofSource _ _)
  have hholds : ((Disk.ofSource "loop:\n").written "b" "jump loop\n").Holds
      ["main.evm", "b", "main.evm"].eraseDups ["loop:\n", "jump loop\n"] :=
    .cons (Disk.text?_of_read rfl) (.cons (Disk.text?_of_read rfl) .nil)
  have hzero : (runOn ((Disk.ofSource "loop:\n").written "b" "jump loop\n")
      ["main.evm", "b", "main.evm"]).1 = 0 := by decide +kernel
  have hsame := (splitting_keeps_run (by decide : Request.parse ["main.evm", "b", "main.evm"] =
      .assemble ⟨["main.evm", "b", "main.evm"], "main.evm.hex", false, none, false⟩)
    (by decide : Request.parse ["b"] = .assemble ⟨["b"], "main.evm.hex", false, none, false⟩)
    (fun path _ => hdest path) (by simp [Closed]) hholds
    (.cons (.refl _) (.cons (.refl _) .nil))).1 "b" "loop:\r\njump loop\n" (by decide)
    (Disk.text?_of_read rfl) (.cons _ (.cons _ (.cons _ (.cons _ (.cons _ (.feed (.refl _)))))))
  exact ⟨hzero, hsame.code.trans hzero, hsame.outputs hzero _ (Or.inl rfl) hregular⟩

end BytecodeAssembler
