import BytecodeAssembler.Run

/-!
# The program

The host that works on the files and the output of the running process.
-/

namespace BytecodeAssembler

/-- The wording of an error with its number. -/
def osMessage (code : UInt32) (details : String) : Cause :=
  .other (details ++ " (os error " ++ toString code ++ ")")

/-- The cause of an error that the operating system gave. -/
def causeOfError : IO.Error → Cause
  | .alreadyExists _ code details => osMessage code details
  | .otherError code details => osMessage code details
  | .resourceBusy code details => osMessage code details
  | .resourceVanished code details => osMessage code details
  | .unsupportedOperation code details => osMessage code details
  | .hardwareFault code details => osMessage code details
  | .unsatisfiedConstraints code details => osMessage code details
  | .illegalOperation code details => osMessage code details
  | .protocolError code details => osMessage code details
  | .timeExpired code details => osMessage code details
  | .interrupted _ code details => osMessage code details
  | .noFileOrDirectory _ code details => osMessage code details
  | .invalidArgument _ code details => osMessage code details
  | .permissionDenied _ code details => osMessage code details
  | .resourceExhausted _ code details => osMessage code details
  | .inappropriateType _ code details => osMessage code details
  | .noSuchThing _ code details => osMessage code details
  | .unexpectedEof => .other "unexpected end of file"
  | .userError message => .other message

/-- Does something to a file, and wraps the error if there is one. -/
def guarded (wrap : Cause → FileFault) (action : IO α) : IO (Except FileFault α) := do
  match ← action.toBaseIO with
  | .ok a => pure (.ok a)
  | .error e => pure (.error (wrap (causeOfError e)))

/-- Reads a file. -/
def readFile (path : String) : IO (Except FileFault ByteArray) := do
  match ← guarded (.cannotOpen path) (IO.FS.Handle.mk path .read) with
  | .error fault => pure (.error fault)
  | .ok handle => guarded .cannotRead handle.readBinToEnd

/-- Writes a file anew. -/
def writeFile (path text : String) : IO (Except FileFault Unit) := do
  match ← guarded (.cannotCreate path) (IO.FS.Handle.mk path .write) with
  | .error fault => pure (.error fault)
  | .ok handle =>
    guarded (.cannotWrite path) do
      handle.putStr text
      handle.flush

/-- Prints text at once, so that it stands in front of what is written to the same channel later. -/
def printNow (text : String) : IO Unit := do
  let out ← IO.getStdout
  out.putStr text
  out.flush

/-- The host of the running process. -/
def processHost : Host IO :=
  ⟨printNow, readFile, writeFile⟩

end BytecodeAssembler

open BytecodeAssembler in
/-- Runs the program with the arguments of the process. -/
def main (arguments : List String) : IO UInt32 := do
  let code ← run processHost arguments
  if code = 2 then IO.eprint helpText
  pure code.toUInt32
