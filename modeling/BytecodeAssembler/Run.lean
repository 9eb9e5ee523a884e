import BytecodeAssembler.Build
import BytecodeAssembler.Host

/-!
# A run of the program

`run` reads the arguments, reads the sources, builds, and writes the outputs. It answers 0 if all of
it worked, 1 if it did not, and 2 if the arguments could not be read.
-/

namespace BytecodeAssembler

open Text

section

variable {m : Type → Type} [Monad m] (host : Host m)

/-- Prints why something could not be done to a file. -/
def reportFile (fault : FileFault) : m Unit :=
  host.print (printed [Diagnostic.headline fault.message,
    .text "  " ++ .paint .blue "caused by" ++ .text (": " ++ fault.cause.message)])

/-- Reads sources one after another. A path given again is read again and keeps its place. -/
def readSources (sources : List Source) : List String → m (Except FileFault (List Source))
  | [] => pure (.ok sources)
  | path :: paths => do
    host.print ("  < " ++ path ++ "\n")
    match ← host.read path with
    | .error fault => pure (.error fault)
    | .ok contents =>
      match String.fromUTF8? contents with
      | none => pure (.error (.cannotRead .notText))
      | some text => readSources (Source.insert sources (.ofText path text)) paths

/-- Writes files one after another, up to the first that cannot be written. -/
def writeOutputs : List (String × String) → m (Option FileFault)
  | [] => pure none
  | (path, text) :: rest => do
    host.print ("  > " ++ path ++ "\n")
    match ← host.write path text with
    | .error fault => pure (some fault)
    | .ok () => writeOutputs rest

/-- Writes what was built, and lists it if that is asked for. -/
def deliver (o : Options) (p : Product) : m Nat := do
  host.print "4. Output\n"
  match ← writeOutputs host (p.outputs o) with
  | some fault => do
    reportFile host fault
    pure 1
  | none => do
    if o.dump then host.print (p.listing o)
    pure 0

/-- Assembles files. -/
def assembleFiles (o : Options) : m Nat := do
  host.print "EVM Assembler\n1. Read Files and Parse Lines\n"
  match ← readSources host [] o.inputs with
  | .error fault => do
    reportFile host fault
    pure 1
  | .ok sources => do
    let (transcript, product?) := build sources
    host.print transcript
    match product? with
    | none => pure 1
    | some product => deliver host o product

/-- A run of the program with arguments; the answer is its exit code. -/
def run (arguments : List String) : m Nat :=
  match Request.parse arguments with
  | .help => do
    host.print helpText
    pure 0
  | .version => do
    host.print versionText
    pure 0
  | .misuse => pure 2
  | .assemble o => assembleFiles host o

end

/-- A run on a disk: the exit code, and the disk and the printed text afterwards. -/
def runOn (disk : Disk) (arguments : List String) : Nat × World :=
  (run World.host arguments).run ⟨disk, ""⟩

end BytecodeAssembler
