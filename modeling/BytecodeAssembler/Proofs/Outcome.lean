import BytecodeAssembler.Proofs.Effects

/-!
# What a run leaves behind

A run that assembles files ends in one of three ways (`Ends`, `run_ends`): nothing can be built,
everything is written, or a file cannot be written. What it leaves behind is read off them:

* `run_computes_pipeline` — it answers 0 if and only if everything is built and written, and then
  the files hold the payload and the symbol map;
* `failing_run_leaves_disk` — if it answers 1 then nothing has changed, or the payload is written
  and the symbol map could not be.
-/

namespace BytecodeAssembler

/-! ### The outputs -/

/-- The payload as it is written: one line of hexadecimal digits behind `0x`, those of the runtime,
and in front of them those of the loader unless only the runtime is asked for. -/
def Deployment.line (product : Deployment) (runtimeOnly : Bool) : String :=
  "0x" ++ Bytes.hexOf ((if runtimeOnly then [] else product.loader) ++ product.runtime.toList) ++
    "\n"

/-- The files to write, in order: the payload, and the symbol map if it is asked for. -/
def Session.outputs (s : Session) (product : Deployment) (o : Options) : List (String × String) :=
  (o.output, product.line o.runtimeOnly) ::
    (o.symbols.map fun path => (path, (s.symbolMap product).text)).toList

theorem Product.outputs_eq (p : Product) (o : Options) :
    p.outputs o = p.session.outputs p.deployment o := by
  have hpayload : p.payload o.runtimeOnly = p.deployment.line o.runtimeOnly := by
    cases o.runtimeOnly with
    | false => rfl
    | true => rfl
  rw [Product.outputs, Session.outputs, hpayload]
  cases o.symbols with
  | none => rfl
  | some path => rfl

theorem forall_outputs {s : Session} {product : Deployment} {o : Options} {P : String → Prop} :
    (∀ output ∈ s.outputs product o, P output.1) ↔ P o.output ∧ ∀ path ∈ o.symbols, P path := by
  rw [Session.outputs, List.forall_mem_cons]
  cases o.symbols with
  | none => simp
  | some path => simp

section Outputs

variable {d : Disk} {s : Session} {product : Deployment} {o : Options} {path : String}

theorem writtenAll_outputs_of_none (h : o.symbols = none) :
    d.writtenAll (s.outputs product o) = d.written o.output (product.line o.runtimeOnly) := by
  rw [Session.outputs, h]
  rfl

theorem writtenAll_outputs_of_some (h : o.symbols = some path) :
    d.writtenAll (s.outputs product o) =
      (d.written o.output (product.line o.runtimeOnly)).written path
        (s.symbolMap product).text := by
  rw [Session.outputs, h]
  rfl

/-- The payload is there if no symbol map is written over it. -/
theorem read_payload (hwritable : d.Writable o.output) (hregular : d.Regular o.output)
    (hapart : ∀ path ∈ o.symbols, ¬ d.SameFile o.output path) :
    (d.writtenAll (s.outputs product o)).read o.output =
      .ok (product.line o.runtimeOnly).toUTF8 := by
  cases hsymbols : o.symbols with
  | none =>
    rw [writtenAll_outputs_of_none hsymbols]
    exact Disk.read_written_self hwritable hregular
  | some path =>
    rw [writtenAll_outputs_of_some hsymbols]
    exact Disk.read_written_written hwritable hregular (hapart path hsymbols)

/-- The symbol map is there, whatever was written before it. -/
theorem read_symbolMap (hsymbols : o.symbols = some path) (hwritable : d.Writable path)
    (hregular : d.Regular path) :
    (d.writtenAll (s.outputs product o)).read path = .ok (s.symbolMap product).text.toUTF8 := by
  rw [writtenAll_outputs_of_some hsymbols]
  exact Disk.read_written_self (Disk.writable_written_iff.mpr hwritable)
    (Disk.regular_written_iff.mpr hregular)

end Outputs

/-- If a file cannot be written and another is changed before, then the payload is written and the
symbol map is not. -/
theorem refused_cases {d : Disk} {s : Session} {product : Deployment} {o : Options}
    {done rest : List (String × String)} {output : String × String}
    (houtputs : s.outputs product o = done ++ output :: rest) (hrefused : ¬ d.Writable output.1)
    {place : Place} (hchanged : Disk.entry? (d.writtenAll done) place ≠ d.entry? place) :
    ∃ path, o.symbols = some path ∧ ¬ d.Writable path ∧
      d.writtenAll done = d.written o.output (product.line o.runtimeOnly) := by
  cases done with
  | nil => exact absurd rfl hchanged
  | cons first done =>
    rw [Session.outputs, List.cons_append] at houtputs
    obtain ⟨rfl, hrest⟩ := List.cons.inj houtputs
    cases hsymbols : o.symbols with
    | none => simp [hsymbols] at hrest
    | some path =>
      cases done with
      | nil =>
        obtain rfl : (path, (s.symbolMap product).text) = output := by
          simpa [hsymbols] using congrArg List.head? hrest
        exact ⟨path, rfl, hrefused, rfl⟩
      | cons second done => simp [hsymbols] at hrest

/-! ### How a run ends -/

/-- How a run ends that assembles files: its exit code, and the disk it leaves. -/
inductive Ends (d : Disk) (o : Options) : Nat → Disk → Prop
  /-- Nothing is built, and nothing is written. -/
  | stopped (hstops : Stops d o.inputs) : Ends d o 1 d
  /-- Everything is written. -/
  | delivered {statements : List Statement} {s : Session} {product : Deployment}
      (hbuilds : Builds d o.inputs statements s product)
      (hall : ∀ output ∈ s.outputs product o, d.Writable output.1) :
      Ends d o 0 (d.writtenAll (s.outputs product o))
  /-- A file cannot be written, and those in front of it are written. -/
  | refused {statements : List Statement} {s : Session} {product : Deployment}
      {done rest : List (String × String)} {output : String × String}
      (hbuilds : Builds d o.inputs statements s product)
      (houtputs : s.outputs product o = done ++ output :: rest)
      (hdone : ∀ output ∈ done, d.Writable output.1) (hrefused : ¬ d.Writable output.1) :
      Ends d o 1 (d.writtenAll done)

/-- What can be written in front of the first path that cannot be written to. -/
theorem exists_refused {d : Disk} {outputs : List (String × String)}
    (h : ¬ ∀ output ∈ outputs, d.Writable output.1) :
    ∃ done output rest, outputs = done ++ output :: rest ∧
      (∀ output ∈ done, d.Writable output.1) ∧ ¬ d.Writable output.1 := by
  induction outputs with
  | nil => exact absurd (fun _ hmem => nomatch hmem) h
  | cons first outputs ih =>
    by_cases hfirst : d.Writable first.1
    · obtain ⟨done, output, rest, rfl, hdone, hrefused⟩ :=
        ih fun hrest => h (List.forall_mem_cons.mpr ⟨hfirst, hrest⟩)
      exact ⟨first :: done, output, rest, rfl, List.forall_mem_cons.mpr ⟨hfirst, hdone⟩, hrefused⟩
    · exact ⟨[], first, outputs, rfl, by simp, hfirst⟩

theorem does_assembleFiles (d : Disk) (o : Options) :
    ∃ text code d', Does (assembleFiles World.host o) d text code d' ∧ Ends d o code d' := by
  by_cases hreadable : ∀ path ∈ o.inputs, ∃ text, d.text? path = some text
  · have hread := does_readSources [] hreadable
    rw [List.nil_append] at hread
    rcases build_spec hreadable with ⟨p, statements, hproduct, hbuilds⟩ | ⟨hnone, hstops⟩
    · by_cases hall : ∀ output ∈ p.outputs o, d.Writable output.1
      · obtain ⟨_, hdeliver⟩ := does_deliver hall
        obtain ⟨_, hdoes⟩ := does_assembleFiles_built hread hproduct hdeliver
        rw [p.outputs_eq] at hall hdoes
        exact ⟨_, 0, _, hdoes, .delivered hbuilds hall⟩
      · obtain ⟨done, output, rest, houtputs, hdone, hrefused⟩ := exists_refused hall
        obtain ⟨_, hdeliver⟩ := does_deliver_refused houtputs hdone hrefused
        obtain ⟨_, hdoes⟩ := does_assembleFiles_built hread hproduct hdeliver
        rw [p.outputs_eq] at houtputs
        exact ⟨_, 1, _, hdoes, .refused hbuilds houtputs hdone hrefused⟩
    · obtain ⟨text, hdoes⟩ := does_assembleFiles_stopped hread hnone
      exact ⟨text, 1, d, hdoes, .stopped hstops⟩
  · push Not at hreadable
    obtain ⟨path, hmem, hnone⟩ := hreadable
    have hnone : d.text? path = none := Option.eq_none_iff_forall_ne_some.mpr hnone
    obtain ⟨fault, _, hread⟩ := does_readSources_unreadable [] hmem hnone
    obtain ⟨text, hdoes⟩ := does_assembleFiles_unreadable hread
    exact ⟨text, 1, d, hdoes, .stopped (.unreadable hmem hnone)⟩

namespace Ends

variable {d left : Disk} {o : Options} {code : Nat}

theorem code_eq_zero_iff (h : Ends d o code left) :
    code = 0 ↔ (∃ statements s product, Builds d o.inputs statements s product) ∧
      d.Writable o.output ∧ ∀ path ∈ o.symbols, d.Writable path := by
  cases h with
  | stopped hstops =>
    refine ⟨fun hzero => absurd hzero Nat.one_ne_zero, ?_⟩
    rintro ⟨⟨statements, s, product, hbuilds⟩, -⟩
    exact absurd hbuilds hstops.not_builds
  | delivered hbuilds hall =>
    exact ⟨fun _ => ⟨⟨_, _, _, hbuilds⟩, forall_outputs.mp hall⟩, fun _ => rfl⟩
  | @refused statements s product done rest output hbuilds houtputs hdone hrefused =>
    refine ⟨fun hzero => absurd hzero Nat.one_ne_zero, ?_⟩
    rintro ⟨-, hwritable⟩
    have hmem : output ∈ s.outputs product o := by simp [houtputs]
    exact absurd (forall_outputs.mpr hwritable output hmem) hrefused

theorem code_eq_one (h : Ends d o code left) (hne : code ≠ 0) : code = 1 := by
  cases h with
  | stopped hstops => rfl
  | delivered hbuilds hall => exact absurd rfl hne
  | refused hbuilds houtputs hdone hrefused => rfl

/-- What a run that answers 0 has built and written. -/
theorem exists_delivered (h : Ends d o 0 left) :
    ∃ statements s product, Builds d o.inputs statements s product ∧ d.Writable o.output ∧
      (∀ path ∈ o.symbols, d.Writable path) ∧ left = d.writtenAll (s.outputs product o) := by
  cases h with
  | @delivered statements s product hbuilds hall =>
    obtain ⟨hwrite, hwrites⟩ := forall_outputs.mp hall
    exact ⟨statements, s, product, hbuilds, hwrite, hwrites, rfl⟩

/-- The outputs of a run that answers 0. -/
theorem read (h : Ends d o 0 left)
    (hregular : d.Regular o.output ∧ ∀ path ∈ o.symbols, d.Regular path)
    (hapart : ∀ path ∈ o.symbols, ¬ d.SameFile o.output path) {statements : List Statement}
    {s : Session} {product : Deployment} (hbuilds : Builds d o.inputs statements s product) :
    left.read o.output = .ok (product.line o.runtimeOnly).toUTF8 ∧
      ∀ path ∈ o.symbols, left.read path = .ok (s.symbolMap product).text.toUTF8 := by
  cases h with
  | delivered hbuilds' hall =>
    obtain ⟨rfl, rfl⟩ := hbuilds'.unique hbuilds
    obtain ⟨hwrite, hwrites⟩ := forall_outputs.mp hall
    refine ⟨read_payload hwrite hregular.1 hapart, fun path hpath => ?_⟩
    exact read_symbolMap hpath (hwrites path hpath) (hregular.2 path hpath)

/-- A run that builds nothing, or whose payload cannot be written, changes nothing. -/
theorem unchanged (h : Ends d o code left) (hfails : Stops d o.inputs ∨ ¬ d.Writable o.output) :
    code = 1 ∧ left = d := by
  cases h with
  | stopped hstops => exact ⟨rfl, rfl⟩
  | delivered hbuilds hall =>
    rcases hfails with hstops | hfirst
    · exact absurd hbuilds hstops.not_builds
    · exact absurd (forall_outputs.mp hall).1 hfirst
  | @refused statements s product done rest output hbuilds houtputs hdone hrefused =>
    rcases hfails with hstops | hfirst
    · exact absurd hbuilds hstops.not_builds
    · refine ⟨rfl, ?_⟩
      cases done with
      | nil => rfl
      | cons first done =>
        obtain rfl : (o.output, product.line o.runtimeOnly) = first := (List.cons.inj houtputs).1
        exact absurd (hdone _ List.mem_cons_self) hfirst

/-- What a run that answers 1 has changed is the payload, and the symbol map is not written. -/
theorem changed (h : Ends d o 1 left) {place : Place}
    (hchanged : left.entry? place ≠ d.entry? place) :
    ∃ path statements s product, Builds d o.inputs statements s product ∧
      d.destination o.output = .ok (.file place) ∧
      left.entry? place = some (.file (product.line o.runtimeOnly).toUTF8) ∧
      o.symbols = some path ∧ ¬ d.Writable path := by
  cases h with
  | stopped hstops => exact absurd rfl hchanged
  | @refused statements s product done rest output hbuilds houtputs hdone hrefused =>
    obtain ⟨path, hsymbols, hunwritable, hleft⟩ := refused_cases houtputs hrefused hchanged
    rw [hleft] at hchanged ⊢
    obtain ⟨hplace, hentry⟩ := Disk.entry?_written_of_ne hchanged
    exact ⟨path, statements, s, product, hbuilds, hplace, hentry, hsymbols, hunwritable⟩

end Ends

/-! ### Runs -/

/-- **How a run ends that assembles files.** -/
theorem run_ends (disk : Disk) {arguments : List String} {o : Options}
    (h : Request.parse arguments = .assemble o) :
    Ends disk o (runOn disk arguments).1 (runOn disk arguments).2.disk := by
  obtain ⟨text, code, left, hdoes, hends⟩ := does_assembleFiles disk o
  have hrun : runOn disk arguments = (code, ⟨left, "" ++ text⟩) := by
    rw [runOn, run, h]
    exact hdoes ""
  rw [hrun]
  exact hends

/-- A run that assembles nothing changes nothing, and does not answer 1. -/
theorem run_idle (disk : Disk) {arguments : List String}
    (h : ∀ o, Request.parse arguments ≠ .assemble o) :
    (runOn disk arguments).1 ≠ 1 ∧ (runOn disk arguments).2.disk = disk := by
  rw [runOn, run]
  cases hparse : Request.parse arguments with
  | help => exact ⟨Nat.zero_ne_one, rfl⟩
  | version => exact ⟨Nat.zero_ne_one, rfl⟩
  | misuse => exact ⟨(by decide : 2 ≠ 1), rfl⟩
  | assemble o => exact absurd hparse (h o)

/-- A disk with a main file. -/
def Disk.ofSource (text : String) : Disk :=
  { entries := [(["main.evm"], .file text.toUTF8)] }

theorem regular_ofSource (text path : String) : (Disk.ofSource text).Regular path := by
  refine Disk.regular_of_below (fun _ _ _ => List.nil_prefix) ?_
  intro place dev _ hentry
  rw [Disk.entry?, Disk.ofSource] at hentry
  split at hentry
  · cases hentry
  · obtain ⟨found, hfound, hdevice⟩ := Option.map_eq_some_iff.mp hentry
    obtain rfl := List.mem_singleton.mp (List.mem_of_find?_eq_some hfound)
    cases hdevice

theorem builds_loop : Builds (.ofSource "loop: jump loop") ["main.evm"]
    [⟨some "loop", some (.jump (some "loop"))⟩]
    ⟨#[0x5B, 0x62, 0, 0, 0, 0x56], ⟨#[("loop", 0)], #[]⟩⟩
    ⟨[0x38, 0x60, 0x0B, 0x60, 0, 0x39, 0x60, 0x06, 0x60, 0, 0xF3],
      #[0x5B, 0x62, 0, 0, 0, 0x56]⟩ where
  readable := by
    intro path hmem
    obtain rfl := List.mem_singleton.mp hmem
    exact ⟨_, Disk.text?_of_read rfl⟩
  parsed := .cons ⟨none, by decide⟩ .nil
  applied := by decide
  finished := by decide

/-- **A run that fails leaves nothing wrong behind.** If nothing can be built, or the payload cannot
be written, then nothing is changed at all. If a run answers 1 and something has changed, then that
is the first output, it holds the whole payload, and only the symbol map could not be written. -/
theorem failing_run_leaves_disk (disk : Disk) (arguments : List String) :
    (∀ o, Request.parse arguments = .assemble o →
      Stops disk o.inputs ∨ ¬ disk.Writable o.output →
      (runOn disk arguments).1 = 1 ∧ (runOn disk arguments).2.disk = disk) ∧
    ((runOn disk arguments).1 = 1 → ∀ place,
      Disk.entry? (runOn disk arguments).2.disk place ≠ disk.entry? place →
      ∃ o path statements s product, Request.parse arguments = .assemble o ∧
        Builds disk o.inputs statements s product ∧
        disk.destination o.output = .ok (.file place) ∧
        Disk.entry? (runOn disk arguments).2.disk place =
          some (.file (product.line o.runtimeOnly).toUTF8) ∧
        o.symbols = some path ∧ ¬ disk.Writable path) := by
  refine ⟨fun o hparse hfails => (run_ends disk hparse).unchanged hfails, ?_⟩
  intro hone place hchanged
  by_cases hassemble : ∃ o, Request.parse arguments = .assemble o
  · obtain ⟨o, hparse⟩ := hassemble
    have hends := run_ends disk hparse
    rw [hone] at hends
    obtain ⟨path, statements, s, product, hleft⟩ := hends.changed hchanged
    exact ⟨o, path, statements, s, product, hparse, hleft⟩
  · exact absurd hone (run_idle disk (not_exists.mp hassemble)).1

theorem failing_run_leaves_disk_payload :
    ((runOn (.ofSource "jump end") []).1 = 1 ∧
      (runOn (.ofSource "jump end") []).2.disk = .ofSource "jump end") ∧
    ∃ o path statements s product, Request.parse ["-s", "no/map"] = .assemble o ∧
      Builds (.ofSource "loop: jump loop") o.inputs statements s product ∧
      (Disk.ofSource "loop: jump loop").destination o.output = .ok (.file ["main.evm.hex"]) ∧
      Disk.entry? (runOn (.ofSource "loop: jump loop") ["-s", "no/map"]).2.disk ["main.evm.hex"] =
        some (.file (product.line o.runtimeOnly).toUTF8) ∧
      o.symbols = some path ∧ ¬ (Disk.ofSource "loop: jump loop").Writable path := by
  have hparsed : Parsed ((Disk.ofSource "jump end").lines ["main.evm"])
      [⟨none, some (.jump (some "end"))⟩] := .cons ⟨none, by decide⟩ .nil
  have hrun : Session.run {} ([⟨none, some (.jump (some "end"))⟩].flatMap Statement.steps) =
      (⟨#[0x62, 0, 0, 0, 0x56], ⟨#[], #[("end", 1)]⟩⟩, none) := by decide
  have hstops : Stops (.ofSource "jump end") ["main.evm"] := .unfinished hparsed hrun rfl
  refine ⟨(failing_run_leaves_disk _ []).1
    ⟨["main.evm"], "main.evm.hex", false, none, false⟩ (by decide) (Or.inl hstops), ?_⟩
  refine (failing_run_leaves_disk _ _).2 (by decide +kernel) _ ?_
  intro hunchanged
  have hwritten : (Disk.entry? (runOn (.ofSource "loop: jump loop") ["-s", "no/map"]).2.disk
      ["main.evm.hex"]).isSome = true := by decide +kernel
  rw [hunchanged] at hwritten
  cases hwritten

end BytecodeAssembler
