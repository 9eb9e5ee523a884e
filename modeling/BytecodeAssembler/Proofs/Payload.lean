import BytecodeAssembler.Proofs.Literals
import BytecodeAssembler.Proofs.Settling
import BytecodeAssembler.Proofs.Tiling

/-!
# The payload describes itself

A sweep over a payload finds the seven instructions of the loader and behind them what a sweep over
the runtime finds, for whatever the runtime is (`sweep_payload`). The second of them pushes the
length of the loader, so the payload says where to cut it (`ofBytes?_bytes`), and payloads of
different runtimes are different texts (`payload_describes_itself`).
-/

namespace BytecodeAssembler

namespace Bytes

theorem hexOf_injective : Function.Injective hexOf := by
  intro a b h
  have hdigits : hexDigits a = hexDigits b := String.ofList_injective h
  have hread := readHex?_hexDigits a
  rw [hdigits, readHex?_hexDigits] at hread
  exact (Option.some.inj hread).symm

end Bytes

namespace Loader

open Instr

theorem value?_push_shortest {n : Nat} (h : n < 2 ^ 64) :
    (push (Bytes.shortest n)).value? = some n := by
  have hwidth : (Bytes.shortest n).length ≤ 8 :=
    (Bytes.length_shortest_le_iff (by decide) n).mpr h
  rw [value?, if_pos hwidth, Bytes.valueOf_shortest]

section Built

variable {loader runtime : List UInt8} (h : build runtime.length = .ok loader)
include h

/-- A loader is short enough for its length to be read back from one byte. -/
theorem length_lt_of_build : loader.length < 256 := by
  obtain ⟨hoffset, hlength, hloader⟩ := build_eq_ok h
  have hself : (flatten (instrs loader.length runtime.length)).length = loader.length := by
    rw [← hloader]
  rw [(length_flatten_instrs_eq_iff hlength hoffset).mp hself]
  exact settled_lt hlength

theorem value?_push_length : (push (Bytes.shortest loader.length)).value? = some loader.length :=
  value?_push_shortest ((length_lt_of_build h).trans (by decide))

theorem span_instrs_of_build : span (instrs loader.length runtime.length) = loader.length := by
  obtain ⟨-, -, hloader⟩ := build_eq_ok h
  rw [← length_flatten, ← hloader]

/-- The sweep over a payload does not run past the end of the loader. -/
theorem sweep_payload :
    sweep (loader ++ runtime) = located 0 (instrs loader.length runtime.length) ++
      (sweep runtime).map (Prod.map (loader.length + ·) id) := by
  obtain ⟨hoffset, hlength, hloader⟩ := build_eq_ok h
  have hsweep := sweepFrom_flatten (instrs_proper hoffset hlength) 0 runtime
  rw [← hloader, span_instrs_of_build h, Nat.zero_add] at hsweep
  rw [sweep, hsweep, sweep, ← sweepFrom_add, Nat.add_zero]

end Built

end Loader

namespace Deployment

/-- The loader and the runtime of a payload, cut where its second instruction says. -/
def ofBytes? (payload : List UInt8) : Option Deployment :=
  match Instr.sweep payload with
  | _ :: (_, offset) :: _ =>
    offset.value?.map fun start => ⟨payload.take start, (payload.drop start).toArray⟩
  | _ => none

theorem ofBytes?_bytes {d : Deployment} (h : Loader.build d.runtime.size = .ok d.loader) :
    ofBytes? d.bytes = some d := by
  rw [← Array.length_toList] at h
  rw [ofBytes?, bytes, Loader.sweep_payload h]
  show (Instr.push (Bytes.shortest d.loader.length)).value?.map _ = some d
  rw [Loader.value?_push_length h]
  simp

theorem bytes_eq_of_toHex_eq {d d' : Deployment} (h : d.toHex = d'.toHex) :
    d.bytes = d'.bytes := by
  have hlists := congrArg String.toList h
  simp only [toHex, String.toList_append] at hlists
  exact Bytes.hexOf_injective (String.toList_inj.mp (List.append_cancel_left hlists))

end Deployment

/-- **The payload describes itself.** What a sweep over the payload of a finished session finds:

* the seven instructions of the loader, of which the second pushes the loader's length and the fifth
  the runtime's, and which end where the loader ends;
* behind them what a sweep over the runtime finds, moved by the length of the loader.

So loader and runtime are read off the payload, and sessions with different runtimes have payloads
that differ as text. The number of bytes in a runtime is a machine word. -/
theorem Session.payload_describes_itself {s : Session} {d : Deployment} (h : s.finalize = .ok d) :
    let offset := Bytes.shortest d.loader.length
    let length := Bytes.shortest d.runtime.size
    let head : List Instr := [.op .CODESIZE, .push offset, .push [0], .op .CODECOPY, .push length,
      .push [0], .op .RETURN]
    d.runtime = s.code ∧
      Instr.sweep d.bytes = Instr.located 0 head ++
        (Instr.sweep d.runtime.toList).map (Prod.map (d.loader.length + ·) id) ∧
      Instr.span head = d.loader.length ∧
      (Instr.push offset).value? = some d.loader.length ∧
      (d.runtime.size < 2 ^ 64 → (Instr.push length).value? = some d.runtime.size) ∧
      Deployment.ofBytes? d.bytes = some d ∧
      ∀ (s' : Session) (d' : Deployment), s'.finalize = .ok d' → d'.runtime ≠ d.runtime →
        d'.toHex ≠ d.toHex := by
  intro offset length head
  obtain ⟨hruntime, hbuild⟩ := finalize_eq_ok h
  have hlist := hbuild
  rw [← Array.length_toList] at hlist
  have hhead : head = Loader.instrs d.loader.length d.runtime.toList.length := by
    rw [Array.length_toList]
    rfl
  refine ⟨(runtime_eq_ok hruntime).2, ?_, ?_, Loader.value?_push_length hlist,
    fun hword => Loader.value?_push_shortest hword, Deployment.ofBytes?_bytes hbuild, ?_⟩
  · rw [hhead, Deployment.bytes, Loader.sweep_payload hlist]
  · rw [hhead, Loader.span_instrs_of_build hlist]
  · intro s' d' h' hne hhex
    obtain ⟨-, hbuild'⟩ := finalize_eq_ok h'
    -- equal texts are equal payloads, and a payload is read in one way
    have hread := Deployment.ofBytes?_bytes hbuild'
    rw [Deployment.bytes_eq_of_toHex_eq hhex, Deployment.ofBytes?_bytes hbuild] at hread
    obtain rfl : d = d' := Option.some.inj hread
    exact hne rfl

/-- A runtime that starts as loaders do, and another one. -/
theorem Session.payload_describes_itself_pair :
    let s := (attempt {} [.perform (.op .CODESIZE), .perform (.push ⟨[1, 0]⟩)]).1
    let s' := (attempt {} [.place "top", .perform (.jump (some "top"))]).1
    let d : Deployment := ⟨[0x38, 0x60, 0x0B, 0x60, 0x00, 0x39, 0x60, 0x04, 0x60, 0x00, 0xF3],
      #[0x38, 0x61, 1, 0]⟩
    let d' : Deployment := ⟨[0x38, 0x60, 0x0B, 0x60, 0x00, 0x39, 0x60, 0x06, 0x60, 0x00, 0xF3],
      #[0x5B, 0x62, 0, 0, 0, 0x56]⟩
    s.finalize = .ok d ∧ s'.finalize = .ok d' ∧ Deployment.ofBytes? d.bytes = some d ∧
      (12, Instr.push [1, 0]) ∈ Instr.sweep d.bytes ∧
      (Instr.push (Bytes.shortest 4)).value? = some 4 ∧ d'.toHex ≠ d.toHex := by
  intro s s' d d'
  have hd : s.finalize = .ok d := by decide
  have hd' : s'.finalize = .ok d' := by decide
  obtain ⟨-, hsweep, -, -, hvalue, hread, hother⟩ := payload_describes_itself hd
  refine ⟨hd, hd', hread, ?_, hvalue (by decide), hother s' d' hd' (by decide)⟩
  rw [hsweep]
  decide

end BytecodeAssembler
