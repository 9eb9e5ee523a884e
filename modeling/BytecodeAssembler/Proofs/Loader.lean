import BytecodeAssembler.Deployment
import BytecodeAssembler.Proofs.Operand
import BytecodeAssembler.Proofs.Sweep

/-!
# What a loader is made of

A loader that `synthesize` returns is the bytes of seven instructions (`Loader.instrs`), and it
returns one exactly if both of its numbers can be pushed. The loader that `settle` ends with copies
from its own end, whatever length was tried first.
-/

namespace BytecodeAssembler

namespace Loader

open Instr

/-- The instructions of a loader in front of its `RETURN`. -/
def copying (offset length : Nat) : List Instr :=
  [.op .CODESIZE, .push (Bytes.shortest offset), .push (Bytes.shortest 0), .op .CODECOPY,
    .push (Bytes.shortest length), .push (Bytes.shortest 0)]

/-- The instructions of a loader. -/
def instrs (offset length : Nat) : List Instr :=
  copying offset length ++ [.op .RETURN]

theorem proper_push_shortest {n : Nat} (h : n < 256 ^ maxPush) :
    (push (Bytes.shortest n)).Proper :=
  ⟨Bytes.length_shortest_pos n, (Bytes.length_shortest_le_iff (by decide) n).mpr h⟩

theorem instrs_proper {offset length : Nat} (hoffset : offset < 256 ^ maxPush)
    (hlength : length < 256 ^ maxPush) : ∀ i ∈ instrs offset length, i.Proper := by
  have hzero : (push (Bytes.shortest 0)).Proper := proper_push_shortest (by decide)
  simp only [instrs, copying, List.cons_append, List.nil_append, List.forall_mem_cons]
  exact ⟨trivial, proper_push_shortest hoffset, hzero, trivial, proper_push_shortest hlength,
    hzero, trivial, List.forall_mem_nil _⟩

/-! ### Synthesis -/

theorem synthesize_of_lt {offset length : Nat} (hoffset : offset < 256 ^ maxPush)
    (hlength : length < 256 ^ maxPush) :
    synthesize offset length = .ok (flatten (instrs offset length)) := by
  have hzero : 0 < 256 ^ maxPush := by decide
  simp [synthesize, steps, Session.run, Session.step, Session.perform,
    Operand.encode_ofNat hoffset, Operand.encode_ofNat hlength, Operand.encode_ofNat hzero,
    instrs, copying]

theorem lt_of_encode_ofNat {n : Nat} {immediate : List UInt8}
    (h : (Operand.ofNat n).encode = .ok immediate) : n < 256 ^ maxPush := by
  refine Nat.lt_of_not_le fun hle => ?_
  obtain ⟨fault, hfault⟩ := Operand.encode_of_le (v := .ofNat n)
    (by rwa [Operand.ofNat, Bytes.valueOf_shortest])
  rw [hfault] at h
  cases h

theorem synthesize_eq_ok {offset length : Nat} {loader : List UInt8}
    (h : synthesize offset length = .ok loader) :
    offset < 256 ^ maxPush ∧ length < 256 ^ maxPush ∧
      loader = flatten (instrs offset length) := by
  have hoffset : offset < 256 ^ maxPush := by
    cases hencode : (Operand.ofNat offset).encode with
    | ok immediate => exact lt_of_encode_ofNat hencode
    | error fault =>
      simp [synthesize, steps, Session.run, Session.step, Session.perform, hencode] at h
  have hzero : 0 < 256 ^ maxPush := by decide
  have hlength : length < 256 ^ maxPush := by
    cases hencode : (Operand.ofNat length).encode with
    | ok immediate => exact lt_of_encode_ofNat hencode
    | error fault =>
      simp [synthesize, steps, Session.run, Session.step, Session.perform, hencode,
        Operand.encode_ofNat hoffset, Operand.encode_ofNat hzero] at h
  rw [synthesize_of_lt hoffset hlength] at h
  exact ⟨hoffset, hlength, (Except.ok.inj h).symm⟩

/-! ### Settling -/

/-- A loader that was settled on copies from its own end. -/
theorem settle_eq_ok {length trials trial : Nat} {loader : List UInt8}
    (h : settle length trials trial = .ok loader) :
    synthesize loader.length length = .ok loader := by
  induction trials generalizing trial with
  | zero => cases h
  | succ trials ih =>
    rw [settle] at h
    split at h
    · cases h
    · next tried htried =>
      split at h
      · next hsettled =>
        -- the trial that came out as long as it was tried
        obtain rfl := Except.ok.inj h
        rwa [hsettled]
      · exact ih h

theorem build_eq_ok {length : Nat} {loader : List UInt8} (h : build length = .ok loader) :
    loader.length < 256 ^ maxPush ∧ length < 256 ^ maxPush ∧
      loader = flatten (instrs loader.length length) :=
  synthesize_eq_ok (settle_eq_ok h)

end Loader

end BytecodeAssembler
