import BytecodeAssembler.Disk

/-!
# Furnishing and comparing disks

`furnished` is a disk with the directories and devices that a process finds, `addFile` and
`addDirectory` fill its home directory, and `changes` tells which files there are not as they were.
-/

namespace BytecodeAssembler.Disk

/-- The tree with a directory at a place and at every place on the way there, where nothing stands
yet. -/
def makeDirectories (d : Disk) (place : Place) : Disk :=
  (List.range place.length).foldl (fun d n =>
    let above := place.take (n + 1)
    if (d.entry? above).isSome then d else d.put above .directory) d

/-- The tree with a directory in which nothing more can be made, and the devices in it. -/
def addSealed (d : Disk) (place : Place) (devices : List (String × Device)) : Disk :=
  (devices.foldl (fun d (name, device) => d.put (place ++ [name]) (.device device))
    (d.makeDirectories place)).put place .sealed

/-- The channels of a process by their numbers: nothing comes in, and the first of the two that go
out prints. -/
def channels : List (String × Device) :=
  [("0", .null), ("1", .console), ("2", .null)]

/-- The devices under `/dev`. -/
def devices : List (String × Device) :=
  [("null", .null), ("zero", .null), ("random", .null), ("urandom", .null), ("full", .full),
    ("tty", .detached), ("stdin", .null), ("stdout", .console), ("stderr", .null)]

/-- The directories that every process finds. -/
def usualDirectories : List Place :=
  [["bin"], ["dev", "pts"], ["dev", "shm"], ["etc"], ["home"], ["lib"], ["opt"], ["proc"], ["root"],
    ["sbin"], ["tmp"], ["usr", "bin"], ["usr", "lib"], ["var", "tmp"]]

/-- A tree with the usual directories and devices, and an empty home directory. -/
def furnished (home : Place) : Disk :=
  let d := usualDirectories.foldl makeDirectories { home := home }
  let d := devices.foldl (fun d (name, device) => d.put ["dev", name] (.device device)) d
  let d := (d.addSealed ["dev", "fd"] channels).addSealed ["proc", "self", "fd"] channels
  ((d.addSealed ["proc", "self"] []).addSealed ["proc"] []).makeDirectories home

/-- The place that a path without dots leads to from the home directory. -/
def placeAtHome (d : Disk) (path : String) : Place :=
  d.home ++ (((Text.pieces (· == '/') path.toList).filter (· ≠ [])).map String.ofList)

/-- The tree with a directory below the home directory. -/
def addDirectory (d : Disk) (path : String) : Disk :=
  d.makeDirectories (d.placeAtHome path)

/-- The tree with a file below the home directory. -/
def addFile (d : Disk) (path : String) (contents : ByteArray) : Disk :=
  let place := d.placeAtHome path
  (d.makeDirectories place.dropLast).put place (.file contents)

/-- The files below the home directory, by their paths from there. -/
def filesAtHome (d : Disk) : List (String × ByteArray) :=
  d.entries.filterMap fun (place, entry) =>
    match entry with
    | .file contents =>
      if d.home.isPrefixOf place && d.home.length < place.length then
        some (String.intercalate "/" (place.drop d.home.length), contents)
      else none
    | _ => none

/-- The files below the home directory that are new or changed since an earlier state. -/
def changes (before after : Disk) : List (String × ByteArray) :=
  after.filesAtHome.filter fun file => !before.filesAtHome.contains file

end BytecodeAssembler.Disk
