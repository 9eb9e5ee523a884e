import BytecodeAssembler.Session

/-!
# Deployment

Code is installed by a loader that runs in front of it, copies it out of the payload and returns it:

    CODESIZE                    the size to copy: the whole payload
    PUSH (loader's length)      from where to copy
    PUSH 0                      to where in memory
    CODECOPY
    PUSH (runtime's length)     how much to return
    PUSH 0                      from where in memory
    RETURN

The loader's length is pushed in as few bytes as it needs, so it depends on itself. `settle` starts
from a trial length and tries again with the length that came out, until the two agree.
-/

namespace BytecodeAssembler

namespace Loader

/-- How many trials are made at most. -/
def maxRefinements : Nat := 8

/-- The steps of a loader that copies from `offset` and returns `length` bytes. -/
def steps (offset length : Nat) : List Step :=
  [.perform (.op .CODESIZE), .perform (.push (.ofNat offset)), .perform (.push (.ofNat 0)),
    .perform (.op .CODECOPY), .perform (.push (.ofNat length)), .perform (.push (.ofNat 0)),
    .perform (.op .RETURN)]

/-- The loader that copies from `offset` and returns `length` bytes. -/
def synthesize (offset length : Nat) : Except Fault (List UInt8) :=
  match Session.run {} (steps offset length) with
  | (s, none) => .ok s.code.toList
  | (_, some fault) => .error fault

/-- Tries from a trial length on until a loader is as long as it was tried to be. -/
def settle (length : Nat) : Nat → Nat → Except Fault (List UInt8)
  | 0, _ => .error (.loaderDiverged maxRefinements)
  | trials + 1, trial =>
    match synthesize trial length with
    | .error fault => .error fault
    | .ok loader =>
      if loader.length = trial then .ok loader else settle length trials loader.length

/-- The loader of a runtime of `length` bytes, which copies from its own end. -/
def build (length : Nat) : Except Fault (List UInt8) :=
  settle length maxRefinements 0

end Loader

/-- A loader and the runtime that it installs. -/
structure Deployment where
  loader : List UInt8
  runtime : Array UInt8
  deriving Repr, DecidableEq

namespace Deployment

/-- The length of the payload. -/
def size (d : Deployment) : Nat :=
  d.loader.length + d.runtime.size

/-- Whether there is no payload at all. -/
def isEmpty (d : Deployment) : Bool :=
  d.size == 0

/-- The payload: the loader and the runtime behind it. -/
def bytes (d : Deployment) : List UInt8 :=
  d.loader ++ d.runtime.toList

/-- The payload in hexadecimal behind `0x`. -/
def toHex (d : Deployment) : String :=
  "0x" ++ Bytes.hexOf d.bytes

end Deployment

/-- Finishes a session: its code behind a loader that installs it. -/
def Session.finalize (s : Session) : Except Fault Deployment :=
  match s.runtime with
  | .error fault => .error fault
  | .ok runtime =>
    match Loader.build runtime.size with
    | .error fault => .error fault
    | .ok loader => .ok ⟨loader, runtime⟩

end BytecodeAssembler
