import BytecodeAssembler.Disk

/-!
# What a run asks of its surroundings

A `Host` prints text, reads files and writes files, in any monad. `World` is the surroundings as a
value: a disk and what was printed so far; `World.host` does to it what a host does.
-/

namespace BytecodeAssembler

/-- What a run asks of its surroundings. -/
structure Host (m : Type → Type) where
  print : String → m Unit
  read : String → m (Except FileFault ByteArray)
  write : String → String → m (Except FileFault Unit)

/-- A disk, and what was printed so far. -/
structure World where
  disk : Disk
  printed : String := ""

namespace World

/-- Prints text behind what was printed so far. -/
def print (text : String) : StateM World Unit :=
  modify fun w => { w with printed := w.printed ++ text }

/-- Reads a file of the disk. -/
def read (path : String) : StateM World (Except FileFault ByteArray) :=
  fun w => (w.disk.read path, w)

/-- Writes a file of the disk, or to a device. -/
def write (path text : String) : StateM World (Except FileFault Unit) :=
  fun w =>
    match w.disk.destination path with
    | .error cause => (.error (.cannotCreate path cause), w)
    | .ok (.device .full) => (.error (.cannotWrite path .noSpace), w)
    | .ok (.device .console) => (.ok (), { w with printed := w.printed ++ text })
    | .ok (.device _) => (.ok (), w)
    | .ok (.file place) => (.ok (), { w with disk := w.disk.put place (.file text.toUTF8) })

/-- The host that works on a value. -/
def host : Host (StateM World) :=
  ⟨print, read, write⟩

end World

end BytecodeAssembler
