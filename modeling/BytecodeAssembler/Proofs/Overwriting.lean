import BytecodeAssembler.Proofs.Outcome

/-!
# When the symbol map is written over the payload

The outputs are written one after another, and nobody asks whether the two paths lead to one file.
If they do then the second output is written over the first, and the run answers 0 all the same
(`payload_lost_on_shared_path`). That is the only way to lose the payload: what a run that answers 0
leaves in its output files is told by `zero_exit_leaves_outputs`.
-/

namespace BytecodeAssembler

/-- A symbol map is no payload. -/
theorem Session.symbolMap_ne_line (s : Session) (product : Deployment) (runtimeOnly : Bool) :
    (s.symbolMap product).text ≠ product.line runtimeOnly := by
  intro h
  have hmap : (s.symbolMap product).text.toList.head? = some 'l' := by
    unfold SymbolMap.text
    simp only [String.append_assoc]
    rw [String.toList_append]
    rfl
  have hline : (product.line runtimeOnly).toList.head? = some '0' := by
    unfold Deployment.line
    rw [String.append_assoc, String.toList_append]
    rfl
  rw [h, hline] at hmap
  exact absurd hmap (by decide)

/-- If both outputs go to one file, then that holds the symbol map. -/
theorem read_payload_of_sameFile {d : Disk} {s : Session} {product : Deployment} {o : Options}
    {path : String} (hsymbols : o.symbols = some path) (hsame : d.SameFile o.output path) :
    (d.writtenAll (s.outputs product o)).read o.output =
      .ok (s.symbolMap product).text.toUTF8 := by
  rw [writtenAll_outputs_of_some hsymbols]
  exact Disk.read_written_of_sameFile (Disk.sameFile_written_iff.mpr hsame)

/-- **What a run that answers 0 leaves in its output files.** The symbol map is always there. The
payload is there if and only if the symbol map did not go to the same file, and if it did then the
file holds the symbol map. -/
theorem zero_exit_leaves_outputs {disk : Disk} {arguments : List String}
    (hhelp : Request.parse arguments ≠ .help) (hversion : Request.parse arguments ≠ .version)
    (hzero : (runOn disk arguments).1 = 0) :
    ∃ o statements s product, Request.parse arguments = .assemble o ∧
      Builds disk o.inputs statements s product ∧
      (disk.Regular o.output →
        ((runOn disk arguments).2.disk.read o.output = .ok (product.line o.runtimeOnly).toUTF8 ↔
          ∀ path ∈ o.symbols, ¬ disk.SameFile o.output path)) ∧
      ∀ path ∈ o.symbols,
        (disk.Regular path → (runOn disk arguments).2.disk.read path =
          .ok (s.symbolMap product).text.toUTF8) ∧
        (disk.SameFile o.output path → (runOn disk arguments).2.disk.read o.output =
          .ok (s.symbolMap product).text.toUTF8) := by
  cases hparse : Request.parse arguments with
  | help => exact absurd hparse hhelp
  | version => exact absurd hparse hversion
  | misuse =>
    rw [runOn, run, hparse] at hzero
    exact absurd hzero (by decide : 2 ≠ 0)
  | assemble o =>
    have hends := run_ends disk hparse
    rw [hzero] at hends
    obtain ⟨statements, s, product, hbuilds, hwrite, hwrites, hleft⟩ := hends.exists_delivered
    refine ⟨o, statements, s, product, rfl, hbuilds, fun hregular => ?_, fun path hpath => ?_⟩
    · rw [hleft]
      refine ⟨fun hread path hpath hsame => ?_, read_payload hwrite hregular⟩
      rw [read_payload_of_sameFile hpath hsame] at hread
      exact s.symbolMap_ne_line product _ (String.toByteArray_inj.mp (Except.ok.inj hread))
    · rw [hleft]
      exact ⟨read_symbolMap hpath (hwrites path hpath), read_payload_of_sameFile hpath⟩

/-- Two paths to two files: both outputs are there. -/
theorem zero_exit_leaves_outputs_apart :
    (runOn (.ofSource "loop: jump loop") ["-o", "x", "-s", "y"]).1 = 0 ∧
    (runOn (.ofSource "loop: jump loop") ["-o", "x", "-s", "y"]).2.disk.read "x" =
      .ok "0x38600b60003960066000f35b6200000056\n".toUTF8 ∧
    (runOn (.ofSource "loop: jump loop") ["-o", "x", "-s", "y"]).2.disk.read "y" =
      .ok "loader_size: 11\nruntime_size: 6\nlabels:\n  loop: 0\n".toUTF8 := by
  have hx : (Disk.ofSource "loop: jump loop").destination "x" = .ok (.file ["x"]) := rfl
  have hy : (Disk.ofSource "loop: jump loop").destination "y" = .ok (.file ["y"]) := rfl
  have hapart : ∀ path ∈ some "y", ¬ (Disk.ofSource "loop: jump loop").SameFile "x" path := by
    simp [Disk.SameFile, hx, hy]
  have hzero : (runOn (.ofSource "loop: jump loop") ["-o", "x", "-s", "y"]).1 = 0 := by
    decide +kernel
  obtain ⟨o, statements, s, product, hparse, hbuilds, hpayload, hmap⟩ :=
    zero_exit_leaves_outputs (by decide) (by decide) hzero
  obtain rfl : Options.mk ["main.evm"] "x" false (some "y") false = o :=
    Request.assemble.inj ((by decide : Request.parse ["-o", "x", "-s", "y"] =
      .assemble ⟨["main.evm"], "x", false, some "y", false⟩).symm.trans hparse)
  obtain ⟨rfl, rfl⟩ := builds_loop.unique hbuilds
  exact ⟨hzero, (hpayload (regular_ofSource _ _)).mpr hapart,
    (hmap "y" rfl).1 (regular_ofSource _ _)⟩

/-- One path for both outputs: the run answers 0, and the file holds the symbol map instead of the
payload. -/
theorem payload_lost_on_shared_path :
    Request.parse ["-o", "x", "-s", "x"] =
      .assemble ⟨["main.evm"], "x", false, some "x", false⟩ ∧
    (runOn (.ofSource "loop: jump loop") ["-o", "x", "-s", "x"]).1 = 0 ∧
    Builds (.ofSource "loop: jump loop") ["main.evm"] [⟨some "loop", some (.jump (some "loop"))⟩]
      ⟨#[0x5B, 0x62, 0, 0, 0, 0x56], ⟨#[("loop", 0)], #[]⟩⟩
      ⟨[0x38, 0x60, 0x0B, 0x60, 0, 0x39, 0x60, 0x06, 0x60, 0, 0xF3],
        #[0x5B, 0x62, 0, 0, 0, 0x56]⟩ ∧
    (runOn (.ofSource "loop: jump loop") ["-o", "x", "-s", "x"]).2.disk.read "x" =
      .ok "loader_size: 11\nruntime_size: 6\nlabels:\n  loop: 0\n".toUTF8 ∧
    (runOn (.ofSource "loop: jump loop") ["-o", "x", "-s", "x"]).2.disk.read "x" ≠
      .ok "0x38600b60003960066000f35b6200000056\n".toUTF8 := by
  have hparse : Request.parse ["-o", "x", "-s", "x"] =
      .assemble ⟨["main.evm"], "x", false, some "x", false⟩ := by decide
  have hzero : (runOn (.ofSource "loop: jump loop") ["-o", "x", "-s", "x"]).1 = 0 := by
    decide +kernel
  have hx : (Disk.ofSource "loop: jump loop").destination "x" = .ok (.file ["x"]) := rfl
  have hends := run_ends (.ofSource "loop: jump loop") hparse
  rw [hzero] at hends
  obtain ⟨statements, s, product, hbuilds, -, -, hleft⟩ := hends.exists_delivered
  obtain ⟨rfl, rfl⟩ := builds_loop.unique hbuilds
  rw [hleft]
  have hread : (Disk.writtenAll (.ofSource "loop: jump loop") (Session.outputs
      ⟨#[0x5B, 0x62, 0, 0, 0, 0x56], ⟨#[("loop", 0)], #[]⟩⟩
      ⟨[0x38, 0x60, 0x0B, 0x60, 0, 0x39, 0x60, 0x06, 0x60, 0, 0xF3],
        #[0x5B, 0x62, 0, 0, 0, 0x56]⟩ ⟨["main.evm"], "x", false, some "x", false⟩)).read "x" =
      .ok "loader_size: 11\nruntime_size: 6\nlabels:\n  loop: 0\n".toUTF8 :=
    read_payload_of_sameFile rfl ⟨["x"], hx, hx⟩
  refine ⟨hparse, hzero, builds_loop, hread, fun hpayload => ?_⟩
  rw [hread] at hpayload
  exact absurd (String.toByteArray_inj.mp (Except.ok.inj hpayload)) (by decide)

end BytecodeAssembler
