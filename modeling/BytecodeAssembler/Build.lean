import BytecodeAssembler.CommandLine
import BytecodeAssembler.Listing
import BytecodeAssembler.SymbolMap

/-!
# From source files to output files

`build` does all that lies between reading the sources and writing the outputs: it reads every line,
applies the statements to one session in order, resolves the labels and builds the loader. What it
says on the way is its transcript.

* `applyAll` — one session through all lines, with the span of each;
* `missingTargets` — the lines that jump to a label that is nowhere placed;
* `Product.outputs` — the files to write, in order.
-/

namespace BytecodeAssembler

open Text

/-- Everything that was built. -/
structure Product where
  session : Session
  rows : List Row
  deployment : Deployment

/-- Applies the statements of lines in order, up to the first that is refused. -/
def applyAll (s : Session) (rows : Array Row) :
    List SourceLine → Except Diagnostic (Session × Array Row)
  | [] => .ok (s, rows)
  | line :: rest =>
    let start := s.size
    match line.statement.apply s with
    | (_, some fault) => .error ⟨fault, line.position⟩
    | (t, none) =>
      let stop := t.size
      applyAll t (rows.push ⟨line, start, stop⟩) rest

/-- A diagnostic for each line that jumps to one of the names. -/
def missingTargets (names : List String) (lines : List SourceLine) : List Diagnostic :=
  lines.filterMap fun line =>
    match line.statement.operation.bind Operation.target? with
    | some name =>
      if names.contains name then some ⟨.unresolvedLabels [name], line.position⟩ else none
    | none => none

/-- Lines of styled text as they are printed. -/
def printed (lines : List Styled) : String :=
  String.join (lines.map fun line => line.ansi ++ "\n")

/-- Diagnostics as they are printed. -/
def printedDiagnostics (ds : List Diagnostic) : String :=
  printed (ds.flatMap Diagnostic.shown)

/-- What is printed when the labels do not resolve. -/
def finishFailure (fault : Fault) (lines : List SourceLine) : String :=
  printed [Diagnostic.headline fault.message] ++
    match fault with
    | .unresolvedLabels names => printedDiagnostics (missingTargets names lines)
    | _ => ""

/-- Resolves the labels of a session and builds the loader. -/
def finish (lines : List SourceLine) (s : Session) (rows : Array Row) : String × Option Product :=
  let labels := decimal s.labels.defined.size
  let sizes := "  - " ++ decimal s.size ++ " bytes, " ++ labels ++ " labels\n"
  let title := "3. Resolve Labels & Build Loader\n"
  match s.finalize with
  | .error fault => (sizes ++ title ++ finishFailure fault lines, none)
  | .ok deployment =>
    (sizes ++ title ++ "  - loader " ++ decimal deployment.loader.length ++ " bytes\n",
      some ⟨s, rows.toList, deployment⟩)

/-- Assembles lines. -/
def assemble (lines : List SourceLine) : String × Option Product :=
  let title := "2. Assemble\n"
  match applyAll {} #[] lines with
  | .error d => (title ++ printedDiagnostics [d], none)
  | .ok (s, rows) =>
    let (transcript, product?) := finish lines s rows
    (title ++ transcript, product?)

/-- Builds what the sources describe, and says what happened. -/
def build (sources : List Source) : String × Option Product :=
  let lines := Source.readAll sources
  match faultsOf lines with
  | [] => assemble (statementsOf lines)
  | faults => (printedDiagnostics faults, none)

namespace Product

/-- The payload as it is written: one line of hexadecimal digits behind `0x`. -/
def payload (p : Product) (runtimeOnly : Bool) : String :=
  (if runtimeOnly then "0x" ++ Bytes.hexOf p.deployment.runtime.toList else p.deployment.toHex) ++
    "\n"

/-- The symbol map as it is written. -/
def symbols (p : Product) : String :=
  (p.session.symbolMap p.deployment).text

/-- The files to write, in order: the payload, and the symbol map if it is asked for. -/
def outputs (p : Product) (o : Options) : List (String × String) :=
  (o.output, p.payload o.runtimeOnly) ::
    match o.symbols with
    | some path => [(path, p.symbols)]
    | none => []

/-- The listing as it is printed; the loader is part of it if it is part of the payload. -/
def listing (p : Product) (o : Options) : String :=
  printed (Listing.lines p.rows p.deployment.runtime
    (if o.runtimeOnly then none else some p.deployment.loader))

end Product

end BytecodeAssembler
