import BytecodeAssembler.Proofs.Destinations
import BytecodeAssembler.Proofs.Loader

/-!
# The payload installs the runtime

The machine that runs a payload is known by what it does at the four kinds of instruction a loader
is made of (`Machine.Conforms`); what else it can do is left open. On straight-line code such a
machine does what `effect` says, one instruction after another (`Conforms.returns_of_effects`).

So it takes the instructions of the loader and no others, and returns the runtime
(`payload_installs_runtime`). The loader asks for as many bytes as the payload has, which is more
than there are behind the loader; the zeros read behind the end of the payload lie behind the
runtime in memory, and are not returned.
-/

namespace BytecodeAssembler

/-- Where a machine is in its code, its stack with the top first, and its memory. -/
structure Machine where
  pc : Nat := 0
  stack : List Nat := []
  memory : Nat → UInt8 := fun _ => 0

namespace Machine

/-- How many words a stack holds at most. -/
def stackLimit : Nat := 1024

/-- What a machine does at an instruction. -/
inductive Outcome
  /-- It goes on. -/
  | next (m : Machine)
  /-- It halts and returns data. -/
  | returned (data : List UInt8)
  /-- It halts for any other reason. -/
  | failed

/-- The `size` bytes of memory from an offset on. -/
def slice (memory : Nat → UInt8) (offset size : Nat) : List UInt8 :=
  (List.range size).map fun i => memory (offset + i)

/-- Memory after `size` bytes of code from `offset` on were copied to `dest`. Code reads as zeros
behind its end. -/
def copy (code : List UInt8) (dest offset size : Nat) (memory : Nat → UInt8) : Nat → UInt8 :=
  fun i => if dest ≤ i ∧ i < dest + size then code[offset + (i - dest)]?.getD 0 else memory i

/-- What is relied on of a machine: `CODESIZE`, pushes, `CODECOPY` and `RETURN`. -/
structure Conforms (step : List UInt8 → Machine → Outcome) : Prop where
  codesize {code : List UInt8} {m : Machine} : code[m.pc]? = some 0x38 →
    m.stack.length < stackLimit →
      step code m = .next ⟨m.pc + 1, code.length :: m.stack, m.memory⟩
  push {code immediate rest : List UInt8} {m : Machine} {b : UInt8} :
    code.drop m.pc = b :: (immediate ++ rest) → 1 ≤ immediate.length → immediate.length ≤ 32 →
      b.toNat = 0x5F + immediate.length → m.stack.length < stackLimit →
        step code m =
          .next ⟨m.pc + 1 + immediate.length, Bytes.valueOf immediate :: m.stack, m.memory⟩
  codecopy {code : List UInt8} {m : Machine} {dest offset size : Nat} {stack : List Nat} :
    code[m.pc]? = some 0x39 → m.stack = dest :: offset :: size :: stack →
      step code m = .next ⟨m.pc + 1, stack, copy code dest offset size m.memory⟩
  ret {code : List UInt8} {m : Machine} {offset size : Nat} {stack : List Nat} :
    code[m.pc]? = some 0xF3 → m.stack = offset :: size :: stack →
      step code m = .returned (slice m.memory offset size)

/-- From `m` on a machine takes the instructions at the offsets `pcs`, and the last of them returns
`data`. -/
inductive Returns (step : List UInt8 → Machine → Outcome) (code : List UInt8) :
    Machine → List Nat → List UInt8 → Prop
  | halt {m : Machine} {data : List UInt8} (h : step code m = .returned data) :
    Returns step code m [m.pc] data
  | next {m m' : Machine} {pcs : List Nat} {data : List UInt8} (h : step code m = .next m')
    (rest : Returns step code m' pcs data) : Returns step code m (m.pc :: pcs) data

variable {step : List UInt8 → Machine → Outcome} {code : List UInt8}

/-- A machine takes one way only. -/
theorem Returns.unique {m : Machine} {pcs pcs' : List Nat} {data data' : List UInt8}
    (h : Returns step code m pcs data) (h' : Returns step code m pcs' data') :
    pcs' = pcs ∧ data' = data := by
  induction h generalizing pcs' data' with
  | halt hstep =>
    cases h' with
    | halt hstep' =>
      rw [hstep] at hstep'
      cases hstep'
      exact ⟨rfl, rfl⟩
    | next hstep' _ =>
      rw [hstep] at hstep'
      cases hstep'
  | next hstep _ ih =>
    cases h' with
    | halt hstep' =>
      rw [hstep] at hstep'
      cases hstep'
    | next hstep' hrest =>
      rw [hstep] at hstep'
      cases hstep'
      obtain ⟨rfl, rfl⟩ := ih hrest
      exact ⟨rfl, rfl⟩

/-! ### Memory -/

@[simp] theorem length_slice (memory : Nat → UInt8) (offset size : Nat) :
    (slice memory offset size).length = size := by
  simp [slice]

/-- Bytes of the code are read back from where they were copied to, though more were copied. -/
theorem slice_copy {offset size n : Nat} (hsize : n ≤ size) (hcode : offset + n ≤ code.length)
    (dest : Nat) (memory : Nat → UInt8) :
    slice (copy code dest offset size memory) dest n = (code.drop offset).take n := by
  have hlength : ((code.drop offset).take n).length = n := by
    rw [List.length_take, List.length_drop]
    omega
  refine List.ext_getElem (by rw [length_slice, hlength]) fun i hi hi' => ?_
  rw [length_slice] at hi
  -- below `n` every byte was copied, and was copied from inside the code
  have hcopied : dest ≤ dest + i ∧ dest + i < dest + size := by omega
  have hread : offset + i < code.length := by omega
  simp only [slice, copy, List.getElem_map, List.getElem_range, if_pos hcopied,
    Nat.add_sub_cancel_left, List.getElem_take, List.getElem_drop]
  rw [List.getElem?_eq_getElem hread, Option.getD_some]

/-! ### Straight-line code -/

/-- What an instruction of a loader but the last does to a machine, if the machine can take it. -/
def effect (code : List UInt8) (m : Machine) : Instr → Option Machine
  | .op .CODESIZE =>
    if m.stack.length < stackLimit then some ⟨m.pc + 1, code.length :: m.stack, m.memory⟩ else none
  | .op .CODECOPY =>
    match m.stack with
    | dest :: offset :: size :: stack =>
      some ⟨m.pc + 1, stack, copy code dest offset size m.memory⟩
    | _ => none
  | .push immediate =>
    if m.stack.length < stackLimit then
      some ⟨m.pc + 1 + immediate.length, Bytes.valueOf immediate :: m.stack, m.memory⟩
    else none
  | _ => none

/-- What instructions of a loader do one after another. -/
def effects (code : List UInt8) (m : Machine) : List Instr → Option Machine
  | [] => some m
  | i :: is => (effect code m i).bind fun m' => effects code m' is

theorem pc_of_effect {m m' : Machine} {i : Instr} (h : effect code m i = some m') :
    m'.pc = m.pc + i.size := by
  unfold effect at h
  split at h
  · split at h
    · cases h; rfl
    · cases h
  · split at h
    · cases h; rfl
    · cases h
  · split at h
    · cases h; exact Nat.add_assoc _ _ _
    · cases h
  · cases h

theorem getElem?_of_drop {pc : Nat} {b : UInt8} {rest : List UInt8}
    (h : code.drop pc = b :: rest) : code[pc]? = some b := by
  have hhead : (code.drop pc)[0]? = some b := by rw [h]; rfl
  rwa [List.getElem?_drop, Nat.add_zero] at hhead

/-- At an instruction of a loader the machine does what the instruction's effect is. -/
theorem Conforms.step_of_effect (hstep : Conforms step) {m m' : Machine} {i : Instr}
    {rest : List UInt8} (hi : i.Proper) (hcode : code.drop m.pc = i.toBytes ++ rest)
    (h : effect code m i = some m') : step code m = .next m' := by
  unfold effect at h
  split at h
  · split at h
    · next hlimit => cases h; exact hstep.codesize (getElem?_of_drop hcode) hlimit
    · cases h
  · split at h
    · next hstack => cases h; exact hstep.codecopy (getElem?_of_drop hcode) hstack
    · cases h
  · split at h
    · next hlimit =>
      cases h
      exact hstep.push hcode hi.1 hi.2 (Instr.toNat_opcode_push hi) hlimit
    · cases h
  · cases h

/-- **Straight-line code does what its instructions do**, and then the machine goes on behind it. -/
theorem Conforms.returns_of_effects (hstep : Conforms step) {m m' : Machine} {is : List Instr}
    {rest : List UInt8} (his : ∀ i ∈ is, i.Proper)
    (hcode : code.drop m.pc = Instr.flatten is ++ rest) (h : effects code m is = some m')
    {pcs : List Nat} {data : List UInt8} (hrest : Returns step code m' pcs data) :
    Returns step code m ((Instr.located m.pc is).map Prod.fst ++ pcs) data := by
  induction is generalizing m with
  | nil =>
    cases h
    exact hrest
  | cons i is ih =>
    obtain ⟨m₁, hfirst, htail⟩ := Option.bind_eq_some_iff.mp h
    obtain ⟨hi, his⟩ := List.forall_mem_cons.mp his
    rw [Instr.flatten_cons, List.append_assoc] at hcode
    have hpc : m₁.pc = m.pc + i.size := pc_of_effect hfirst
    have hbehind : code.drop m₁.pc = Instr.flatten is ++ rest := by
      rw [hpc, ← List.drop_drop, hcode, ← Instr.length_toBytes, List.drop_left]
    have hgo := ih his hbehind htail
    rw [hpc] at hgo
    exact .next (hstep.step_of_effect hi hcode hfirst) hgo

/-! ### A machine that conforms -/

/-- Pushes a word, if the stack has room for it, and goes on at `pc`. -/
def pushed (m : Machine) (pc word : Nat) : Outcome :=
  if m.stack.length < stackLimit then .next ⟨pc, word :: m.stack, m.memory⟩ else .failed

/-- The immediate of a push of `width` bytes. Code reads as zeros behind its end. -/
def immediateOf (rest : List UInt8) (width : Nat) : List UInt8 :=
  (rest ++ List.replicate width 0).take width

/-- A machine that has the instructions of a loader only. It stops behind the end of its code. -/
def plainStep (code : List UInt8) (m : Machine) : Outcome :=
  match code.drop m.pc with
  | [] => .returned []
  | b :: rest =>
    if 0x60 ≤ b.toNat ∧ b.toNat ≤ 0x7F then
      let width := b.toNat - 0x5F
      pushed m (m.pc + 1 + width) (Bytes.valueOf (immediateOf rest width))
    else if b = 0x38 then pushed m (m.pc + 1) code.length
    else if b = 0x39 then
      match m.stack with
      | dest :: offset :: size :: stack =>
        .next ⟨m.pc + 1, stack, copy code dest offset size m.memory⟩
      | _ => .failed
    else if b = 0xF3 then
      match m.stack with
      | offset :: size :: _ => .returned (slice m.memory offset size)
      | _ => .failed
    else .failed

theorem drop_of_getElem? {pc : Nat} {b : UInt8} (h : code[pc]? = some b) :
    code.drop pc = b :: code.drop (pc + 1) := by
  obtain ⟨hpc, rfl⟩ := List.getElem?_eq_some_iff.mp h
  exact List.drop_eq_getElem_cons hpc

theorem conforms_plainStep : Conforms plainStep where
  codesize hcode hlimit := by
    simp [plainStep, drop_of_getElem? hcode, pushed, hlimit]
  push {code immediate rest m b} hcode hpos hle hb hlimit := by
    have hrange : 0x60 ≤ b.toNat ∧ b.toNat ≤ 0x7F := by omega
    have hwidth : b.toNat - 0x5F = immediate.length := by omega
    have himmediate : immediateOf (immediate ++ rest) immediate.length = immediate := by
      rw [immediateOf, List.append_assoc, List.take_left]
    simp only [plainStep, hcode, if_pos hrange, hwidth, himmediate, pushed, if_pos hlimit]
  codecopy hcode hstack := by
    simp [plainStep, drop_of_getElem? hcode, hstack]
  ret hcode hstack := by
    simp [plainStep, drop_of_getElem? hcode, hstack]

end Machine

namespace Loader

open Machine

/-- The machine at a loader's `RETURN`: the code from `offset` on was copied to the start of memory,
and on the stack are that place and how much of it to return. -/
def copied (code : List UInt8) (offset length : Nat) : Machine where
  pc := Instr.span (copying offset length)
  stack := [0, length]
  memory := copy code 0 offset code.length fun _ => 0

theorem effects_copying (code : List UInt8) (offset length : Nat) :
    effects code {} (copying offset length) = some (copied code offset length) := by
  simp [effects, effect, copying, copied, stackLimit, Bytes.valueOf_shortest, Instr.size,
    Nat.add_assoc]

theorem located_instrs (offset length : Nat) :
    Instr.located 0 (instrs offset length) = Instr.located 0 (copying offset length) ++
      [(Instr.span (copying offset length), .op .RETURN)] := by
  rw [instrs, Instr.located_append, Nat.zero_add]
  rfl

theorem length_flatten_instrs (offset length : Nat) :
    (Instr.flatten (instrs offset length)).length = Instr.span (copying offset length) + 1 := by
  rw [instrs, Instr.flatten_append, List.length_append, Instr.length_flatten]
  rfl

/-- A loader in front of a runtime returns that runtime. -/
theorem returns_build {step : List UInt8 → Machine → Outcome} (hstep : Conforms step)
    {loader runtime : List UInt8} (h : build runtime.length = .ok loader) :
    Returns step (loader ++ runtime) {} ((Instr.sweep loader).map Prod.fst) runtime := by
  obtain ⟨hoffset, hlength, hloader⟩ := build_eq_ok h
  have hproper := instrs_proper hoffset hlength
  have hsweep := Instr.sweep_flatten hproper
  rw [← hloader, located_instrs] at hsweep
  rw [hsweep, List.map_append]
  have hcode : loader ++ runtime =
      Instr.flatten (copying loader.length runtime.length) ++ (0xF3 :: runtime) := by
    conv_lhs => rw [hloader, instrs, Instr.flatten_append, List.append_assoc]
    rfl
  refine hstep.returns_of_effects (m := {})
    (fun i hi => hproper i (List.mem_append_left _ hi)) hcode (effects_copying _ _ _)
    (Returns.halt ?_)
  have hbyte : (loader ++ runtime)[Instr.span (copying loader.length runtime.length)]? =
      some 0xF3 := by
    rw [hcode, ← Instr.length_flatten, List.getElem?_append_right le_rfl, Nat.sub_self]
    rfl
  rw [hstep.ret hbyte rfl, copied, slice_copy (by simp) (by simp), List.drop_left,
    List.take_length]

end Loader

namespace Session

open Machine

/-- **The payload installs the runtime**, which is the code of the session. A machine that starts
the payload with an empty stack and zeros in memory takes the instructions of the loader one after
another, which are all in front of the runtime and end with the loader's `RETURN`, and returns the
runtime. -/
theorem payload_installs_runtime {step : List UInt8 → Machine → Outcome} (hstep : Conforms step)
    {s : Session} {d : Deployment} (h : s.finalize = .ok d) :
    d.runtime = s.code ∧
      (∀ pcs data, Returns step d.bytes {} pcs data ↔
        pcs = (Instr.sweep d.loader).map Prod.fst ∧ data = d.runtime.toList) ∧
      (∀ entry ∈ Instr.sweep d.loader, entry.1 + entry.2.size ≤ d.loader.length) ∧
      (Instr.sweep d.loader).getLast? = some (d.loader.length - 1, .op .RETURN) := by
  obtain ⟨hruntime, hbuild⟩ := finalize_eq_ok h
  rw [← Array.length_toList] at hbuild
  obtain ⟨hoffset, hlength, hloader⟩ := Loader.build_eq_ok hbuild
  have hsweep := Instr.sweep_flatten (Loader.instrs_proper hoffset hlength)
  have hspan := Instr.length_flatten (Loader.instrs d.loader.length d.runtime.toList.length)
  have hend := Loader.length_flatten_instrs d.loader.length d.runtime.toList.length
  rw [← hloader] at hsweep hspan hend
  have hreturns := Loader.returns_build hstep hbuild
  refine ⟨(runtime_eq_ok hruntime).2, fun pcs data => ⟨hreturns.unique, ?_⟩, ?_, ?_⟩
  · rintro ⟨rfl, rfl⟩
    exact hreturns
  · intro entry hentry
    rw [hsweep] at hentry
    have hle := Instr.end_le_of_mem_located hentry
    omega
  · rw [hsweep, Loader.located_instrs, List.getLast?_concat]
    congr 2
    omega

/-- A runtime of twelve bytes, behind a loader of eleven. -/
theorem payload_installs_loop :
    let s := (attempt {} [.place "top", .perform (.push ⟨[1, 0]⟩), .perform (.op .CODECOPY),
      .perform (.jump (some "top")), .perform (.dup 3), .perform (.op .STOP)]).1
    let d : Deployment :=
      ⟨[0x38, 0x60, 0x0B, 0x60, 0x00, 0x39, 0x60, 0x0C, 0x60, 0x00, 0xF3],
        #[0x5B, 0x61, 1, 0, 0x39, 0x62, 0, 0, 0, 0x56, 0x83, 0x00]⟩
    s.finalize = .ok d ∧
      Returns plainStep d.bytes {} [0, 1, 3, 5, 6, 8, 10] d.runtime.toList := by
  intro s d
  have hfinalize : s.finalize = .ok d := by decide
  obtain ⟨-, hreturns, -, -⟩ := payload_installs_runtime conforms_plainStep hfinalize
  exact ⟨hfinalize, (hreturns _ _).mpr ⟨by decide, rfl⟩⟩

end Session

end BytecodeAssembler
