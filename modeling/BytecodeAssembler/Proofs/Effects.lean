import BytecodeAssembler.Proofs.Files
import BytecodeAssembler.Proofs.Pipeline
import BytecodeAssembler.Run

/-!
# What a run does to a disk

`Does x d text a d'` says all that a computation on a disk does: it prints a text, gives a value and
leaves a disk. What a run does follows from what its parts do (`Does.bind`).

* `does_readSources`, `does_readSources_unreadable` — reading gives the distinct files in the order
  of their first mention, or ends at one that cannot be read, and changes nothing;
* `does_writeOutputs`, `does_writeOutputs_refused` — writing writes everything, or what stands in
  front of the first path that cannot be written to;
* `does_deliver`, `does_deliver_refused` — the same of the outputs of what was built;
* `does_assembleFiles_built` — all of it is reading, building and delivering.
-/

namespace BytecodeAssembler

/-! ### Computations on a disk -/

/-- A computation on a disk prints a text, gives a value, and leaves a disk. -/
def Does {α : Type} (x : StateM World α) (d : Disk) (text : String) (a : α) (d' : Disk) : Prop :=
  ∀ printed, x.run ⟨d, printed⟩ = (a, ⟨d', printed ++ text⟩)

section Does

variable {α β : Type} {d d' d'' : Disk} {text text' : String}

theorem Does.pure (a : α) : Does (pure a) d "" a d := by
  intro printed
  rw [String.append_empty]
  rfl

theorem Does.bind {x : StateM World α} {f : α → StateM World β} {a : α} {b : β}
    (hx : Does x d text a d') (hf : Does (f a) d' text' b d'') :
    Does (x >>= f) d (text ++ text') b d'' := by
  intro printed
  have hbind : (x >>= f).run ⟨d, printed⟩ =
      (f (x.run ⟨d, printed⟩).1).run (x.run ⟨d, printed⟩).2 := rfl
  rw [hbind, hx printed, hf (printed ++ text), String.append_assoc]

theorem does_print (text : String) : Does (World.host.print text) d text () d :=
  fun _ => rfl

theorem does_read (path : String) : Does (World.host.read path) d "" (d.read path) d := by
  intro printed
  rw [String.append_empty]
  rfl

theorem run_write (path contents : String) (w : World) :
    (World.host.write path contents).run w = World.write path contents w := rfl

theorem does_write {path : String} (h : d.Writable path) (contents : String) :
    ∃ text, Does (World.host.write path contents) d text (.ok ()) (d.written path contents) := by
  obtain ⟨dest, hdest, hroom⟩ := h
  rcases dest with place | dev
  · refine ⟨"", fun printed => ?_⟩
    rw [run_write, World.write, hdest, Disk.written, hdest, String.append_empty]
  · rw [Disk.written, hdest]
    cases dev with
    | full => exact absurd rfl hroom
    | console =>
      refine ⟨contents, fun printed => ?_⟩
      rw [run_write, World.write, hdest]
    | null | detached =>
      refine ⟨"", fun printed => ?_⟩
      rw [run_write, World.write, hdest, String.append_empty]

theorem does_write_refused {path : String} (h : ¬ d.Writable path) (contents : String) :
    ∃ fault, Does (World.host.write path contents) d "" (.error fault) d := by
  cases hdest : d.destination path with
  | error cause =>
    refine ⟨.cannotCreate path cause, fun printed => ?_⟩
    rw [run_write, World.write, hdest, String.append_empty]
  | ok dest =>
    obtain rfl : dest = .device .full := by
      by_contra hroom
      exact h ⟨dest, hdest, hroom⟩
    refine ⟨.cannotWrite path .noSpace, fun printed => ?_⟩
    rw [run_write, World.write, hdest, String.append_empty]

theorem does_reportFile (fault : FileFault) :
    ∃ text, Does (reportFile World.host fault) d text () d :=
  ⟨_, does_print _⟩

end Does

/-! ### Reading -/

section Reading

variable {d d' : Disk} {sources : List Source} {path : String} {paths : List String}

/-- What is printed when a file is read. -/
def reading (path : String) : String :=
  "  < " ++ path ++ "\n"

theorem does_readSources_cons {text rest : String} {result : Except FileFault (List Source)}
    (htext : d.text? path = some text)
    (h : Does (readSources World.host (Source.insert sources (.ofText path text)) paths) d rest
      result d') :
    Does (readSources World.host sources (path :: paths)) d (reading path ++ rest) result d' := by
  unfold Disk.text? at htext
  cases hread : d.read path with
  | error fault => simp [hread] at htext
  | ok contents =>
    rw [hread] at htext
    have hprinted : reading path ++ rest = reading path ++ ("" ++ rest) := by
      rw [String.empty_append]
    rw [readSources, hprinted]
    refine (does_print _).bind ((does_read path).bind ?_)
    simpa only [hread, htext] using h

theorem does_readSources_cons_unreadable (hnone : d.text? path = none) :
    ∃ fault text,
      Does (readSources World.host sources (path :: paths)) d text (.error fault) d := by
  unfold Disk.text? at hnone
  cases hread : d.read path with
  | error fault =>
    refine ⟨fault, reading path ++ ("" ++ ""), (does_print _).bind ((does_read path).bind ?_)⟩
    simpa only [hread] using Does.pure _
  | ok contents =>
    rw [hread] at hnone
    refine ⟨.cannotRead .notText, reading path ++ ("" ++ ""),
      (does_print _).bind ((does_read path).bind ?_)⟩
    simpa only [hread, hnone] using Does.pure _

/-- Files that can be read are read, each once. -/
theorem does_readSources (before : List String)
    (hreadable : ∀ path ∈ paths, ∃ text, d.text? path = some text) :
    Does (readSources World.host (before.eraseDups.map d.source) paths) d
      (String.join (paths.map reading)) (.ok ((before ++ paths).eraseDups.map d.source)) d := by
  induction paths generalizing before with
  | nil =>
    rw [List.append_nil]
    exact Does.pure _
  | cons path paths ih =>
    obtain ⟨text, htext⟩ := hreadable path List.mem_cons_self
    have hsource : Source.ofText path text = d.source path := by rw [Disk.source, htext]; rfl
    have hrest := ih (before ++ [path]) fun p hp => hreadable p (List.mem_cons_of_mem _ hp)
    rw [List.append_assoc, List.singleton_append, ← Disk.insert_source, ← hsource] at hrest
    rw [List.map_cons, String.join_cons]
    exact does_readSources_cons htext hrest

/-- Reading ends at a file that cannot be read. -/
theorem does_readSources_unreadable (sources : List Source) (hmem : path ∈ paths)
    (hnone : d.text? path = none) :
    ∃ fault text, Does (readSources World.host sources paths) d text (.error fault) d := by
  induction paths generalizing sources with
  | nil => cases hmem
  | cons first paths ih =>
    cases htext : d.text? first with
    | none => exact does_readSources_cons_unreadable htext
    | some text =>
      have hrest : path ∈ paths := by
        rcases List.mem_cons.mp hmem with rfl | hrest
        · rw [hnone] at htext
          cases htext
        · exact hrest
      obtain ⟨fault, _, hdoes⟩ := ih (Source.insert sources (.ofText first text)) hrest
      exact ⟨fault, _, does_readSources_cons htext hdoes⟩

end Reading

/-! ### Writing -/

section Writing

variable {d : Disk}

/-- Texts are written to paths that can be written to, and the writing goes on behind them. -/
theorem does_writeOutputs_append {d' : Disk} {done rest : List (String × String)} {text : String}
    {result : Option FileFault} (hdone : ∀ output ∈ done, d.Writable output.1)
    (hrest : Does (writeOutputs World.host rest) (d.writtenAll done) text result d') :
    ∃ text, Does (writeOutputs World.host (done ++ rest)) d text result d' := by
  induction done generalizing d with
  | nil => exact ⟨text, hrest⟩
  | cons output done ih =>
    obtain ⟨path, contents⟩ := output
    obtain ⟨hpath, hdone⟩ := List.forall_mem_cons.mp hdone
    obtain ⟨_, hwrite⟩ := does_write hpath contents
    obtain ⟨_, hdoes⟩ := ih (Disk.forall_writable_written hdone) hrest
    exact ⟨_, (does_print _).bind (hwrite.bind hdoes)⟩

/-- Texts are written to all paths if all can be written to. -/
theorem does_writeOutputs {outputs : List (String × String)}
    (h : ∀ output ∈ outputs, d.Writable output.1) :
    ∃ text, Does (writeOutputs World.host outputs) d text none (d.writtenAll outputs) := by
  have hend : Does (writeOutputs World.host []) (d.writtenAll outputs) "" none
      (d.writtenAll outputs) := Does.pure none
  obtain ⟨text, hdoes⟩ := does_writeOutputs_append h hend
  rw [List.append_nil] at hdoes
  exact ⟨text, hdoes⟩

/-- Writing ends at a path that cannot be written to. -/
theorem does_writeOutputs_refused {done : List (String × String)} {path : String}
    (contents : String) (rest : List (String × String))
    (hdone : ∀ output ∈ done, d.Writable output.1) (hrefused : ¬ d.Writable path) :
    ∃ fault text, Does (writeOutputs World.host (done ++ (path, contents) :: rest)) d text
      (some fault) (d.writtenAll done) := by
  obtain ⟨fault, hwrite⟩ :=
    does_write_refused (mt Disk.writable_writtenAll_iff.mp hrefused) contents
  exact ⟨fault, does_writeOutputs_append hdone
    ((does_print _).bind (hwrite.bind (Does.pure (some fault))))⟩

variable {o : Options} {p : Product}

/-- What is printed last when everything is written: the listing, if it is asked for. -/
def Product.dumped (p : Product) (o : Options) : String :=
  if o.dump then p.listing o else ""

/-- Listing what was built changes nothing. -/
theorem does_listing (o : Options) (p : Product) : Does (do
    if o.dump then World.host.print (p.listing o)
    pure 0) d (p.dumped o) 0 d := by
  rw [Product.dumped]
  cases o.dump with
  | false => exact Does.pure 0
  | true =>
    have hdoes : Does (do
        World.host.print (p.listing o)
        pure 0) d (p.listing o ++ "") 0 d := (does_print _).bind (Does.pure 0)
    rw [String.append_empty] at hdoes
    exact hdoes

theorem does_deliver (h : ∀ output ∈ p.outputs o, d.Writable output.1) :
    ∃ text, Does (deliver World.host o p) d (text ++ p.dumped o) 0
      (d.writtenAll (p.outputs o)) := by
  obtain ⟨text, hwrite⟩ := does_writeOutputs h
  have hlisting := does_listing (d := d.writtenAll (p.outputs o)) o p
  refine ⟨"4. Output\n" ++ text, ?_⟩
  rw [String.append_assoc]
  exact (does_print _).bind (hwrite.bind hlisting)

theorem does_deliver_refused {done rest : List (String × String)} {path contents : String}
    (houtputs : p.outputs o = done ++ (path, contents) :: rest)
    (hdone : ∀ output ∈ done, d.Writable output.1) (hrefused : ¬ d.Writable path) :
    ∃ text, Does (deliver World.host o p) d text 1 (d.writtenAll done) := by
  obtain ⟨fault, _, hwrite⟩ := does_writeOutputs_refused contents rest hdone hrefused
  rw [← houtputs] at hwrite
  obtain ⟨_, hreport⟩ := does_reportFile (d := d.writtenAll done) fault
  exact ⟨_, (does_print _).bind (hwrite.bind (hreport.bind (Does.pure 1)))⟩

end Writing

/-! ### Assembling files -/

section Assembling

variable {d d' : Disk} {o : Options} {sources : List Source} {reads rest : String} {code : Nat}

theorem does_assembleFiles_unreadable {fault : FileFault}
    (hread : Does (readSources World.host [] o.inputs) d reads (.error fault) d) :
    ∃ text, Does (assembleFiles World.host o) d text 1 d := by
  obtain ⟨_, hreport⟩ := does_reportFile (d := d) fault
  exact ⟨_, (does_print _).bind (hread.bind (hreport.bind (Does.pure 1)))⟩

variable (hread : Does (readSources World.host [] o.inputs) d reads (.ok sources) d)
include hread

/-- If nothing is built, then the transcript of building is printed last. -/
theorem does_assembleFiles_transcript {transcript : String}
    (hbuild : build sources = (transcript, none)) : Does (assembleFiles World.host o) d
      ("EVM Assembler\n1. Read Files and Parse Lines\n" ++ (reads ++ transcript)) 1 d := by
  have hdoes : Does (assembleFiles World.host o) d
      ("EVM Assembler\n1. Read Files and Parse Lines\n" ++ (reads ++ (transcript ++ ""))) 1 d := by
    refine (does_print _).bind (hread.bind ?_)
    simp only [hbuild]
    exact (does_print transcript).bind (Does.pure 1)
  rwa [String.append_empty] at hdoes

theorem does_assembleFiles_stopped (hnone : (build sources).2 = none) :
    ∃ text, Does (assembleFiles World.host o) d text 1 d := by
  rcases hbuild : build sources with ⟨transcript, product?⟩
  obtain rfl : product? = none := by rw [← hnone, hbuild]
  exact ⟨_, does_assembleFiles_transcript hread hbuild⟩

theorem does_assembleFiles_built {p : Product} (hsome : (build sources).2 = some p)
    (hdeliver : Does (deliver World.host o p) d rest code d') :
    ∃ text, Does (assembleFiles World.host o) d (text ++ rest) code d' := by
  rcases hbuild : build sources with ⟨transcript, product?⟩
  obtain rfl : product? = some p := by rw [← hsome, hbuild]
  refine ⟨"EVM Assembler\n1. Read Files and Parse Lines\n" ++ (reads ++ transcript), ?_⟩
  rw [String.append_assoc, String.append_assoc]
  refine (does_print _).bind (hread.bind ?_)
  simp only [hbuild]
  exact (does_print transcript).bind hdeliver

end Assembling

end BytecodeAssembler
