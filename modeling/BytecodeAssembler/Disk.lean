import BytecodeAssembler.FileFault
import BytecodeAssembler.Path

/-!
# Files

`Disk` is a directory tree: what stands at each place, and the directory in which relative paths
start. A path is followed name by name, and fails for the reason for which it cannot be followed.

* `Disk.read` — the contents of a file;
* `Disk.destination` — where text goes that is written to a path: into a file or to a device.
-/

namespace BytecodeAssembler

/-- Something to read from and to write to that is no file. -/
inductive Device
  /-- It is empty and drops what is written to it. -/
  | null
  /-- It has no room for anything. -/
  | full
  /-- It prints what is written to it. -/
  | console
  /-- It is not there, though it has a name. -/
  | detached
  deriving Repr, DecidableEq

/-- What stands at a place. -/
inductive Entry
  /-- A directory. -/
  | directory
  /-- A directory in which nothing can be made. -/
  | sealed
  /-- A file and its contents. -/
  | file (contents : ByteArray)
  /-- A device. -/
  | device (d : Device)

/-- Whether other things can stand below it. -/
def Entry.isDirectory : Entry → Bool
  | directory | sealed => true
  | file _ | device _ => false

/-- Whether it is a directory in which nothing can be made. -/
def Entry.isSealed : Entry → Bool
  | sealed => true
  | directory | file _ | device _ => false

/-- A directory tree, and the directory in which relative paths start. -/
structure Disk where
  entries : List (Place × Entry) := []
  home : Place := []

/-- Where written text goes. -/
inductive Destination
  | file (place : Place)
  | device (d : Device)
  deriving Repr, DecidableEq

namespace Disk

/-- What stands at a place. The root is a directory. -/
def entry? (d : Disk) (place : Place) : Option Entry :=
  if place = [] then some .directory
  else (d.entries.find? fun e => e.1 == place).map Prod.snd

/-- The tree with an entry at a place. -/
def put (d : Disk) (place : Place) (entry : Entry) : Disk :=
  if (d.entry? place).isSome then
    { d with entries := d.entries.map fun e => if e.1 = place then (place, entry) else e }
  else { d with entries := d.entries ++ [(place, entry)] }

/-! ### Following paths -/

/-- Whether a name stands for a directory relative to the one it is in. -/
def isDots (name : String) : Bool :=
  name == "." || name == ".."

/-- What stands under a name in a directory. -/
def look (d : Disk) (here : Place) (name : String) : Except Cause (Option Entry) :=
  if maxName < name.utf8ByteSize then .error .nameTooLong else .ok (d.entry? (here ++ [name]))

/-- Goes from a directory into the directory that a name stands for. -/
def enter (d : Disk) (here : Place) (name : String) : Except Cause Place :=
  if name = "." then .ok here
  else if name = ".." then .ok here.dropLast
  else match d.look here name with
    | .error cause => .error cause
    | .ok none => .error .notFound
    | .ok (some entry) => if entry.isDirectory then .ok (here ++ [name]) else .error .notDirectory

/-- Goes through directories one after another. -/
def follow (d : Disk) (here : Place) : List String → Except Cause Place
  | [] => .ok here
  | name :: names =>
    match d.enter here name with
    | .error cause => .error cause
    | .ok there => d.follow there names

/-- The directory that holds the last name of a path, and the path taken apart. -/
def approach (d : Disk) (path : String) : Except Cause (Place × Route) :=
  if path = "" then .error .notFound
  else if maxPath < path.utf8ByteSize then .error .nameTooLong
  else
    let route := Route.ofPath path
    match d.follow (if route.absolute then [] else d.home) route.through with
    | .error cause => .error cause
    | .ok here => .ok (here, route)

/-! ### Reading -/

/-- What a path leads to. -/
def find (d : Disk) (path : String) : Except Cause Entry :=
  match d.approach path with
  | .error cause => .error cause
  | .ok (here, route) =>
    if isDots route.last then .ok .directory
    else match d.look here route.last with
      | .error cause => .error cause
      | .ok none => .error .notFound
      | .ok (some entry) =>
        if route.slash && !entry.isDirectory then .error .notDirectory else .ok entry

/-- The contents of a file. A directory can be opened and not read, and a device is empty. -/
def read (d : Disk) (path : String) : Except FileFault ByteArray :=
  match d.find path with
  | .error cause => .error (.cannotOpen path cause)
  | .ok .directory | .ok .sealed => .error (.cannotRead .isDirectory)
  | .ok (.file contents) => .ok contents
  | .ok (.device .detached) => .error (.cannotOpen path .noDevice)
  | .ok (.device _) => .ok ByteArray.empty

/-! ### Writing -/

/-- Where text goes that is written to a path. -/
def destination (d : Disk) (path : String) : Except Cause Destination :=
  match d.approach path with
  | .error cause => .error cause
  | .ok (here, route) =>
    if isDots route.last || route.slash then .error .isDirectory
    else match d.look here route.last with
      | .error cause => .error cause
      | .ok none =>
        if (d.entry? here).any Entry.isSealed then .error .notFound
        else .ok (.file (here ++ [route.last]))
      | .ok (some .directory) | .ok (some .sealed) => .error .isDirectory
      | .ok (some (.file _)) => .ok (.file (here ++ [route.last]))
      | .ok (some (.device .detached)) => .error .noDevice
      | .ok (some (.device device)) => .ok (.device device)

end Disk

end BytecodeAssembler
