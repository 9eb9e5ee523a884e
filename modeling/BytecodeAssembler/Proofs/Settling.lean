import Mathlib.Order.Bounds.Basic
import BytecodeAssembler.Proofs.Destinations
import BytecodeAssembler.Proofs.Loader

/-!
# The length of a loader settles

A loader pushes its own length in as few bytes as that needs. Whatever offset is tried, a loader
takes nine bytes and the widths of two numbers, the offset and the runtime's length
(`length_flatten_instrs_eq`), and both are at most 32 bytes wide. So no loader is long enough for
its length to need a second byte, and only one offset is the length of its own loader
(`length_flatten_instrs_eq_iff`). The first trial ends with that offset and the second stays there
(`settle_of_lt`).
-/

namespace BytecodeAssembler

namespace Loader

open Instr

/-- The length of the loader of a runtime: the width of the runtime's length, and ten bytes. -/
def settled (length : Nat) : Nat :=
  10 + (Bytes.shortest length).length

theorem length_flatten_instrs_eq (offset length : Nat) :
    (flatten (instrs offset length)).length =
      9 + (Bytes.shortest offset).length + (Bytes.shortest length).length := by
  have hzero : (Bytes.shortest 0).length = 1 := rfl
  rw [length_flatten]
  simp only [instrs, copying, List.cons_append, List.nil_append, span_cons, span_nil, size, hzero]
  omega

theorem length_shortest_of_lt {n : Nat} (h : n < 256) : (Bytes.shortest n).length = 1 :=
  le_antisymm ((Bytes.length_shortest_le_iff le_rfl n).mpr h) (Bytes.length_shortest_pos n)

theorem length_shortest_le_maxPush {n : Nat} (h : n < 256 ^ maxPush) :
    (Bytes.shortest n).length ≤ 32 :=
  (Bytes.length_shortest_le_iff (by decide) n).mpr h

section Settling

variable {length : Nat} (hlength : length < 256 ^ maxPush)
include hlength

theorem settled_lt : settled length < 256 := by
  have hwidth := length_shortest_le_maxPush hlength
  unfold settled
  omega

/-- **One offset only is the length of its own loader.** -/
theorem length_flatten_instrs_eq_iff {offset : Nat} (hoffset : offset < 256 ^ maxPush) :
    (flatten (instrs offset length)).length = offset ↔ offset = settled length := by
  have hwidth := length_shortest_le_maxPush hlength
  rw [length_flatten_instrs_eq, settled]
  constructor
  · intro hself
    -- two widths of at most 32 bytes leave the offset below 256, so it is one byte wide itself
    have hsmall := length_shortest_le_maxPush hoffset
    have hone : (Bytes.shortest offset).length = 1 := length_shortest_of_lt (by omega)
    omega
  · rintro rfl
    have hone : (Bytes.shortest (10 + (Bytes.shortest length).length)).length = 1 :=
      length_shortest_of_lt (by omega)
    omega

theorem settled_lt_pow : settled length < 256 ^ maxPush :=
  (settled_lt hlength).trans (by decide)

theorem length_settled : (flatten (instrs (settled length) length)).length = settled length :=
  (length_flatten_instrs_eq_iff hlength (settled_lt_pow hlength)).mpr rfl

/-- **Two trials are enough**, and no further one is made. -/
theorem settle_of_lt (trials : Nat) :
    settle length (trials + 2) 0 = .ok (flatten (instrs (settled length) length)) := by
  have hfirst : (flatten (instrs 0 length)).length = settled length := by
    rw [length_flatten_instrs_eq, settled]
    rfl
  have hmoves : settled length ≠ 0 := by
    unfold settled
    omega
  rw [settle, synthesize_of_lt (by decide) hlength]
  simp only [hfirst, if_neg hmoves]
  rw [settle, synthesize_of_lt (settled_lt_pow hlength) hlength]
  simp only [length_settled hlength, if_true]

theorem build_of_lt : build length = .ok (flatten (instrs (settled length) length)) :=
  settle_of_lt hlength 6

end Settling

theorem settled_mono {m n : Nat} (h : m ≤ n) : settled m ≤ settled n :=
  Nat.add_le_add_left (Bytes.length_shortest_mono h) 10

end Loader

namespace Session

theorem runtime_eq_error {s : Session} {fault : Fault} (h : s.runtime = .error fault) :
    fault = .unresolvedLabels s.labels.unresolved := by
  unfold runtime Labels.checkResolved at h
  split at h
  · cases h
  · next hresolved =>
    split at hresolved
    · cases hresolved
    · cases hresolved
      cases h
      rfl

/-- A session that is not finished has labels that are not placed; nothing else is in the way. -/
theorem finalize_eq_error {s : Session} (hsize : s.size < 256 ^ maxPush) {fault : Fault}
    (h : s.finalize = .error fault) : fault = .unresolvedLabels s.labels.unresolved := by
  rw [finalize] at h
  cases hruntime : s.runtime with
  | error refused =>
    obtain rfl : refused = fault := by simpa [hruntime] using h
    exact runtime_eq_error hruntime
  | ok code =>
    obtain ⟨-, rfl⟩ := runtime_eq_ok hruntime
    have hlength : s.code.size < 256 ^ maxPush := hsize
    have hbuild := Loader.build_of_lt hlength
    simp [hruntime, hbuild] at h

end Session

namespace Loader

/-- **The loader of a runtime settles, and on one length only.** For every length that is a machine
word:

* a loader is built that copies from its own end, ten bytes longer than the fewest bytes that hold
  the runtime's length, which are at most eight;
* two trials are enough to find it, so that a session is refused for its labels only;
* no other offset is the length of the loader that copies from there;
* the loader of a shorter runtime is not longer. -/
theorem build_settles {length : Nat} (hlength : length < 2 ^ 64) :
    ∃ loader, build length = .ok loader ∧ synthesize loader.length length = .ok loader ∧
      (∃ width, IsLeast {k | 1 ≤ k ∧ length < 256 ^ k} width ∧ width ≤ 8 ∧
        loader.length = 10 + width) ∧
      (∀ trials, settle length (trials + 2) 0 = .ok loader) ∧
      (∀ s : Session, s.size = length → ∀ fault, s.finalize = .error fault →
        fault = .unresolvedLabels s.labels.unresolved) ∧
      (∀ offset < 2 ^ 64, ∃ tried, synthesize offset length = .ok tried ∧
        (tried.length = offset ↔ offset = loader.length)) ∧
      ∀ shorter ≤ length, ∃ tried, build shorter = .ok tried ∧ tried.length ≤ loader.length := by
  have hword : ∀ {n : Nat}, n < 2 ^ 64 → n < 256 ^ maxPush := fun h => h.trans (by decide)
  have hpush := hword hlength
  have hself := length_settled hpush
  refine ⟨Instr.flatten (instrs (settled length) length), build_of_lt hpush, ?_, ?_,
    settle_of_lt hpush, ?_, ?_, ?_⟩
  · rw [hself]
    exact synthesize_of_lt (settled_lt_pow hpush) hpush
  · refine ⟨(Bytes.shortest length).length, ⟨?_, ?_⟩, ?_, hself⟩
    · exact ⟨Bytes.length_shortest_pos length, Bytes.lt_pow_length_shortest length⟩
    · rintro k ⟨hpos, hlt⟩
      exact (Bytes.length_shortest_le_iff hpos length).mpr hlt
    · exact (Bytes.length_shortest_le_iff (by decide) length).mpr hlength
  · rintro s rfl fault hfault
    exact Session.finalize_eq_error hpush hfault
  · intro offset hoffset
    refine ⟨_, synthesize_of_lt (hword hoffset) hpush, ?_⟩
    rw [hself]
    exact length_flatten_instrs_eq_iff hpush (hword hoffset)
  · intro shorter hle
    have hshorter := hle.trans_lt hpush
    refine ⟨_, build_of_lt hshorter, ?_⟩
    rw [hself, length_settled hshorter]
    exact settled_mono hle

/-- The first length that takes two bytes. -/
theorem build_settles_two_bytes :
    let loader : List UInt8 :=
      [0x38, 0x60, 0x0C, 0x60, 0x00, 0x39, 0x61, 0x01, 0x00, 0x60, 0x00, 0xF3]
    256 < 2 ^ 64 ∧ build 256 = .ok loader ∧ settle 256 2 0 = .ok loader ∧
      (∃ tried, synthesize 11 256 = .ok tried ∧ tried.length ≠ 11) ∧
      ∃ tried, build 255 = .ok tried ∧ tried.length ≤ loader.length := by
  intro loader
  have hword : 256 < 2 ^ 64 := by decide
  have hloader : build 256 = .ok loader := by decide
  obtain ⟨built, hbuild, -, -, hsettle, -, hother, hshorter⟩ := build_settles hword
  obtain rfl : loader = built := Except.ok.inj (hloader.symm.trans hbuild)
  obtain ⟨tried, htried, hself⟩ := hother 11 (by decide)
  refine ⟨hword, hloader, hsettle 0, ⟨tried, htried, ?_⟩, hshorter 255 (by decide)⟩
  intro h
  exact absurd (hself.mp h) (by decide)

end Loader

end BytecodeAssembler
