/-!
# The command line

`Request.parse` reads the arguments from left to right. Flags of one letter can be written together;
the rest of such a cluster behind `-o` or `-s` is that option's value, with or without an `=` in
front. Behind `--` every argument is an input. The first request for help or for the version ends
the reading, and so does the first misuse: an unknown option, a missing value, or an option that was
given before.
-/

namespace BytecodeAssembler

/-- What a run is asked to do. -/
structure Options where
  inputs : List String
  output : String
  runtimeOnly : Bool
  symbols : Option String
  dump : Bool
  deriving Repr, DecidableEq

/-- What the arguments ask for. -/
inductive Request
  | help
  | version
  | misuse
  | assemble (options : Options)
  deriving Repr, DecidableEq

/-- An option that takes a value. -/
inductive Valued
  | output | symbols
  deriving Repr, DecidableEq

/-- What was read so far. -/
structure Scan where
  inputs : List String := []
  output : Option String := none
  symbols : Option String := none
  runtimeOnly : Bool := false
  dump : Bool := false
  /-- The option whose value is the next argument. -/
  waiting : Option Valued := none
  /-- Whether every further argument is an input. -/
  inputsOnly : Bool := false
  deriving Repr, DecidableEq

namespace Scan

/-- Adds an input. -/
def addInput (s : Scan) (path : String) : Scan :=
  { s with inputs := s.inputs ++ [path] }

/-- Gives an option its value, once. -/
def setValue (s : Scan) (value : String) : Valued → Except Request Scan
  | .output =>
    if s.output.isSome then .error .misuse
    else .ok { s with output := some value, waiting := none }
  | .symbols =>
    if s.symbols.isSome then .error .misuse
    else .ok { s with symbols := some value, waiting := none }

/-- Raises the flag for the runtime alone, once. -/
def setRuntimeOnly (s : Scan) : Except Request Scan :=
  if s.runtimeOnly then .error .misuse else .ok { s with runtimeOnly := true }

/-- Raises the flag for the listing, once. -/
def setDump (s : Scan) : Except Request Scan :=
  if s.dump then .error .misuse else .ok { s with dump := true }

/-- A value without the one `=` that may stand in front of it. -/
def dropEquals : List Char → List Char
  | '=' :: cs => cs
  | cs => cs

/-- An option of one letter, whose value is the rest of the cluster or the next argument. -/
def shortValue (s : Scan) (option : Valued) (rest : List Char) : Except Request Scan :=
  if rest = [] then .ok { s with waiting := some option }
  else s.setValue (String.ofList (dropEquals rest)) option

/-- Reads flags of one letter that are written together. -/
def cluster (s : Scan) : List Char → Except Request Scan
  | [] => .ok s
  | 'r' :: cs => do (← s.setRuntimeOnly).cluster cs
  | 'd' :: cs => do (← s.setDump).cluster cs
  | 'o' :: cs => s.shortValue .output cs
  | 's' :: cs => s.shortValue .symbols cs
  | 'h' :: _ => .error .help
  | 'V' :: _ => .error .version
  | _ => .error .misuse

/-- The name of a long option, and the value behind the first `=`. -/
def splitEquals (cs : List Char) : String × Option String :=
  let name := cs.takeWhile (· ≠ '=')
  match cs.dropWhile (· ≠ '=') with
  | [] => (String.ofList name, none)
  | _ :: value => (String.ofList name, some (String.ofList value))

/-- Reads a long option. -/
def long (s : Scan) (cs : List Char) : Except Request Scan :=
  match splitEquals cs with
  | ("output", some value) => s.setValue value .output
  | ("output", none) => .ok { s with waiting := some .output }
  | ("symbols", some value) => s.setValue value .symbols
  | ("symbols", none) => .ok { s with waiting := some .symbols }
  | ("runtime", none) => s.setRuntimeOnly
  | ("dump", none) => s.setDump
  | ("help", none) => .error .help
  | ("version", none) => .error .version
  | _ => .error .misuse

/-- Reads an argument where no value is expected. -/
def option (s : Scan) (argument : String) : Except Request Scan :=
  match argument.toList with
  | ['-', '-'] => .ok { s with inputsOnly := true }
  | '-' :: '-' :: cs => s.long cs
  | '-' :: c :: cs => s.cluster (c :: cs)
  | _ => .ok (s.addInput argument)

/-- Whether an argument cannot be a value: it starts with a dash and is not the dash alone. -/
def isOption (argument : String) : Bool :=
  match argument.toList with
  | '-' :: _ :: _ => true
  | _ => false

/-- Reads an argument. -/
def next (s : Scan) (argument : String) : Except Request Scan :=
  if s.inputsOnly then .ok (s.addInput argument)
  else match s.waiting with
    | some valued =>
      if isOption argument then .error .misuse else s.setValue argument valued
    | none => s.option argument

/-- Reads arguments to the end, or to the one that ends the reading. -/
def all (s : Scan) : List String → Except Request Scan
  | [] => .ok s
  | argument :: rest => do (← s.next argument).all rest

/-- What was asked for once all arguments are read. -/
def finish (s : Scan) : Request :=
  if s.waiting.isSome then .misuse
  else .assemble
    { inputs := if s.inputs = [] then ["main.evm"] else s.inputs
      output := s.output.getD "main.evm.hex"
      runtimeOnly := s.runtimeOnly
      symbols := s.symbols
      dump := s.dump }

end Scan

/-- Reads the arguments of a run. -/
def Request.parse (arguments : List String) : Request :=
  match Scan.all {} arguments with
  | .ok s => s.finish
  | .error request => request

/-- The version of the program. -/
def versionText : String :=
  "evmasm 0.1.0\n"

/-- How the program is called. -/
def helpText : String :=
  versionText ++
    "  Kanade <kanade.k.1228@gmail.com>\n" ++
    "  Symbolic assembler for EVM bytecode with deployment loader\n" ++
    "\n" ++
    "Usage:\n" ++
    "  evmasm [OPTIONS] [INPUT]...\n" ++
    "\n" ++
    "Arguments:\n" ++
    "  [INPUT]...  Input files [default: main.evm]\n" ++
    "\n" ++
    "Options:\n" ++
    "  -o, --output <OUTPUT>    Output file [default: main.evm.hex]\n" ++
    "  -r, --runtime            Write runtime code only, without the deployment loader\n" ++
    "  -s, --symbols <SYMBOLS>  Write label offsets as YAML\n" ++
    "  -d, --dump               Dump assembly listing\n" ++
    "  -h, --help               Print help\n" ++
    "  -V, --version            Print version\n"

end BytecodeAssembler
