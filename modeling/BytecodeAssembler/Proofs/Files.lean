import BytecodeAssembler.Disk

/-!
# What writing a file changes

A file can be written to a path if the path leads to a file, or to a place in a directory where
nothing stands. So a directory is never written over, and the paths that can be followed before the
file is written are those that can be followed afterwards:

* `Disk.entry?_put` — what stands at a place after something was put at another;
* `Disk.SameBut place d d'` — two disks that differ in at most a file at a place, so that paths are
  followed alike on both (`SameBut.approach_iff`);
* `Disk.destination_put_iff` — what is written to a path goes to the same place as before;
* `Disk.read_put_self`, `Disk.read_put_of_ne` — the file that was written reads as it was written,
  and a file elsewhere as before;
* `Disk.Writable`, `Disk.written` — the same in terms of paths: whether text can be written to a
  path, and the disk afterwards, on which the same paths can be written to.
-/

namespace BytecodeAssembler.Disk

/-! ### Entries -/

theorem entry?_of_ne_nil (d : Disk) {place : Place} (h : place ≠ []) :
    d.entry? place = (d.entries.find? fun e => e.1 == place).map Prod.snd :=
  if_neg h

@[simp] theorem home_put (d : Disk) (place : Place) (entry : Entry) :
    (d.put place entry).home = d.home := by
  unfold put
  split
  · rfl
  · rfl

/-- Replacing an entry keeps its place, so a search finds it where it found the old one. -/
theorem find?_replace (entries : List (Place × Entry)) (place : Place) (entry : Entry)
    (other : Place) :
    (entries.map fun e => if e.1 = place then (place, entry) else e).find?
        (fun e => e.1 == other) =
      (entries.find? fun e => e.1 == other).map
        fun e => if e.1 = place then (place, entry) else e := by
  have hkey : ((fun e : Place × Entry => e.1 == other) ∘
      fun e => if e.1 = place then (place, entry) else e) = fun e => e.1 == other := by
    funext e
    simp only [Function.comp_apply]
    split
    · next heq => rw [heq]
    · rfl
  rw [List.find?_map, hkey]

theorem entry?_put (d : Disk) {place : Place} (hplace : place ≠ []) (entry : Entry)
    (other : Place) :
    Disk.entry? (d.put place entry) other =
      if other = place then some entry else d.entry? other := by
  by_cases hroot : other = []
  · subst hroot
    rw [if_neg (Ne.symm hplace)]
    rfl
  rw [entry?_of_ne_nil _ hroot, entry?_of_ne_nil _ hroot]
  unfold put
  split
  · next hold =>
    rw [find?_replace]
    by_cases hother : other = place
    · subst hother
      rw [entry?_of_ne_nil _ hplace] at hold
      obtain ⟨e, he⟩ := Option.isSome_iff_exists.mp hold
      obtain ⟨found, hfound, -⟩ := Option.map_eq_some_iff.mp he
      have hat : found.1 = other := by simpa using List.find?_some hfound
      simp [hfound, hat]
    · rw [if_neg hother]
      cases hfound : d.entries.find? fun e => e.1 == other with
      | none => rfl
      | some found =>
        have hat : found.1 = other := by simpa using List.find?_some hfound
        have hne : found.1 ≠ place := by rwa [hat]
        simp [hne]
  · next hnew =>
    rw [entry?_of_ne_nil _ hplace] at hnew
    rw [List.find?_append]
    by_cases hother : other = place
    · subst hother
      have hnone : d.entries.find? (fun e => e.1 == other) = none := by
        rwa [Option.isSome_map, Option.not_isSome_iff_eq_none] at hnew
      simp [hnone]
    · have hne : ¬ place = other := Ne.symm hother
      simp [hother, hne]

/-! ### Two disks that differ in a file -/

/-- The disks are alike but for what stands at a place, which is a directory on neither. -/
structure SameBut (place : Place) (d d' : Disk) : Prop where
  home : d'.home = d.home
  elsewhere : ∀ other ≠ place, d'.entry? other = d.entry? other
  here : ∀ entry ∈ d.entry? place, entry.isDirectory = false
  there : ∀ entry ∈ d'.entry? place, entry.isDirectory = false

namespace SameBut

variable {place : Place} {d d' : Disk}

theorem symm (h : SameBut place d d') : SameBut place d' d :=
  ⟨h.home.symm, fun other hother => (h.elsewhere other hother).symm, h.there, h.here⟩

theorem isSealed_eq (h : SameBut place d d') (other : Place) :
    (d'.entry? other).any Entry.isSealed = (d.entry? other).any Entry.isSealed := by
  have hnone : ∀ found : Option Entry, (∀ entry ∈ found, entry.isDirectory = false) →
      found.any Entry.isSealed = false := by
    rintro (_ | entry) hentry
    · rfl
    · have hfile := hentry entry rfl
      cases entry with
      | directory | «sealed» => cases hfile
      | file contents => rfl
      | device dev => rfl
  by_cases hother : other = place
  · subst hother
    rw [hnone _ h.here, hnone _ h.there]
  · rw [h.elsewhere other hother]

theorem enter_of_enter (h : SameBut place d d') {here there : Place} {name : String}
    (henter : d.enter here name = .ok there) : d'.enter here name = .ok there := by
  unfold enter look at henter ⊢
  split
  · next hdot => simpa [hdot] using henter
  · next hdot =>
    split
    · next hdots => simpa [hdot, hdots] using henter
    · next hdots =>
      by_cases hlong : maxName < name.utf8ByteSize
      · simp [hdot, hdots, hlong] at henter
      · by_cases hplace : here ++ [name] = place
        · -- the place holds no directory to enter
          cases hentry : d.entry? (here ++ [name]) with
          | none => simp [hdot, hdots, hlong, hentry] at henter
          | some entry =>
            have hfile := h.here entry (by rw [← hplace]; exact hentry)
            simp [hdot, hdots, hlong, hentry, hfile] at henter
        · rw [h.elsewhere _ hplace]
          simpa [hdot, hdots] using henter

theorem follow_of_follow (h : SameBut place d d') {here there : Place} {names : List String}
    (hfollow : d.follow here names = .ok there) : d'.follow here names = .ok there := by
  induction names generalizing here with
  | nil => exact hfollow
  | cons name names ih =>
    rw [follow] at hfollow ⊢
    cases henter : d.enter here name with
    | error cause => simp [henter] at hfollow
    | ok next =>
      rw [henter] at hfollow
      rw [h.enter_of_enter henter]
      exact ih hfollow

theorem approach_of_approach (h : SameBut place d d') {path : String} {here : Place} {route : Route}
    (happroach : d.approach path = .ok (here, route)) : d'.approach path = .ok (here, route) := by
  unfold approach at happroach ⊢
  split
  · next hempty => simp [hempty] at happroach
  · next hempty =>
    split
    · next hlong => simp [hempty, hlong] at happroach
    · next hlong =>
      rw [if_neg hempty, if_neg hlong] at happroach
      dsimp only at happroach ⊢
      rw [h.home]
      cases hfollow : d.follow (if (Route.ofPath path).absolute then [] else d.home)
          (Route.ofPath path).through with
      | error cause => simp [hfollow] at happroach
      | ok there =>
        rw [hfollow] at happroach
        rw [h.follow_of_follow hfollow]
        exact happroach

theorem approach_iff (h : SameBut place d d') {path : String} {here : Place} {route : Route} :
    d'.approach path = .ok (here, route) ↔ d.approach path = .ok (here, route) :=
  ⟨h.symm.approach_of_approach, h.approach_of_approach⟩

end SameBut

/-! ### Where text goes -/

/-- A path can be followed up to its last name, which may be the name of a file. -/
structure Arrives (d : Disk) (path : String) (here : Place) (route : Route) : Prop where
  approach : d.approach path = .ok (here, route)
  plain : isDots route.last = false
  bare : route.slash = false
  short : ¬ maxName < route.last.utf8ByteSize

/-- Where text goes that is written under a name in a directory: into a file that is made for it,
into the file that is there, or to the device that is there. -/
inductive Reaches (d : Disk) (here : Place) (name : String) : Destination → Prop
  | new (hnone : d.entry? (here ++ [name]) = none)
      (hopen : (d.entry? here).any Entry.isSealed = false) :
      Reaches d here name (.file (here ++ [name]))
  | old {contents : ByteArray} (hfile : d.entry? (here ++ [name]) = some (.file contents)) :
      Reaches d here name (.file (here ++ [name]))
  | device {dev : Device} (hdevice : d.entry? (here ++ [name]) = some (.device dev))
      (hthere : dev ≠ .detached) : Reaches d here name (.device dev)

theorem Reaches.destination_eq {d : Disk} {path : String} {here : Place} {route : Route}
    {dest : Destination} (hpath : Arrives d path here route) (h : Reaches d here route.last dest) :
    d.destination path = .ok dest := by
  have hends : (isDots route.last || route.slash) = false := by simp [hpath.plain, hpath.bare]
  unfold destination look
  simp only [hpath.approach, hends, if_neg hpath.short, Bool.false_eq_true, if_false]
  cases h with
  | new hnone hopen => simp [hnone, hopen]
  | old hfile => simp [hfile]
  | @device dev hdevice hthere =>
    cases dev with
    | detached => exact absurd rfl hthere
    | null | full | console => simp [hdevice]

theorem exists_reaches {d : Disk} {path : String} {dest : Destination}
    (h : d.destination path = .ok dest) :
    ∃ here route, Arrives d path here route ∧ Reaches d here route.last dest := by
  unfold destination look at h
  cases happroach : d.approach path with
  | error cause => simp [happroach] at h
  | ok found =>
    obtain ⟨here, route⟩ := found
    simp only [happroach] at h
    split at h
    · cases h
    · next hends =>
      obtain ⟨hplain, hbare⟩ : isDots route.last = false ∧ route.slash = false := by
        simpa using hends
      by_cases hshort : maxName < route.last.utf8ByteSize
      · simp [hshort] at h
      · refine ⟨here, route, ⟨happroach, hplain, hbare, hshort⟩, ?_⟩
        rw [if_neg hshort] at h
        cases hentry : d.entry? (here ++ [route.last]) with
        | none =>
          simp only [hentry] at h
          split at h
          · cases h
          · next hopen =>
            obtain rfl := Except.ok.inj h
            exact .new hentry (by simpa using hopen)
        | some entry =>
          rcases entry with _ | _ | contents | dev
          · simp [hentry] at h
          · simp [hentry] at h
          · obtain rfl : Destination.file (here ++ [route.last]) = dest := by simpa [hentry] using h
            exact .old hentry
          · cases dev with
            | detached => simp [hentry] at h
            | null | full | console =>
              obtain rfl : Destination.device _ = dest := by simpa [hentry] using h
              exact .device hentry (by simp)

/-- Only what stands under the name, and whether the directory is sealed, matters. -/
theorem Reaches.congr {d d' : Disk} {here : Place} {name : String} {dest : Destination}
    (hentry : d'.entry? (here ++ [name]) = d.entry? (here ++ [name]))
    (hsealed : (d'.entry? here).any Entry.isSealed = (d.entry? here).any Entry.isSealed)
    (h : Reaches d here name dest) : Reaches d' here name dest := by
  cases h with
  | new hnone hopen => exact .new (hentry.trans hnone) (hsealed.trans hopen)
  | old hfile => exact .old (hentry.trans hfile)
  | device hdevice hthere => exact .device (hentry.trans hdevice) hthere

theorem reaches_file {d : Disk} {path : String} {here : Place} {name : String}
    (h : d.destination path = .ok (.file (here ++ [name]))) :
    Reaches d here name (.file (here ++ [name])) := by
  obtain ⟨here', route, -, hreaches⟩ := exists_reaches h
  generalize hdest : Destination.file (here ++ [name]) = dest at hreaches
  cases hreaches with
  | device hdevice hthere => cases hdest
  | new hnone hopen =>
    obtain ⟨rfl, hlast⟩ := List.append_inj' (Destination.file.inj hdest) rfl
    obtain rfl : name = route.last := by simpa using hlast
    exact .new hnone hopen
  | old hfile =>
    obtain ⟨rfl, hlast⟩ := List.append_inj' (Destination.file.inj hdest) rfl
    obtain rfl : name = route.last := by simpa using hlast
    exact .old hfile

theorem read_of_arrives {d : Disk} {path : String} {here : Place} {route : Route}
    (h : Arrives d path here route) {contents : ByteArray}
    (hfile : d.entry? (here ++ [route.last]) = some (.file contents)) :
    d.read path = .ok contents := by
  have hfind : d.find path = .ok (.file contents) := by
    unfold find look
    simp [h.approach, h.plain, h.bare, if_neg h.short, hfile]
  rw [read, hfind]

/-! ### Writing into a file -/

section Put

variable {d : Disk} {out : String} {place : Place} (hout : d.destination out = .ok (.file place))
include hout

theorem arrives_of_destination :
    ∃ here route, Arrives d out here route ∧ place = here ++ [route.last] := by
  obtain ⟨here, route, hpath, hreaches⟩ := exists_reaches hout
  cases hreaches with
  | new hnone hopen => exact ⟨here, route, hpath, rfl⟩
  | old hfile => exact ⟨here, route, hpath, rfl⟩

theorem entry?_of_destination :
    d.entry? place = none ∨ ∃ contents, d.entry? place = some (.file contents) := by
  obtain ⟨here, route, -, hreaches⟩ := exists_reaches hout
  cases hreaches with
  | new hnone hopen => exact Or.inl hnone
  | old hfile => exact Or.inr ⟨_, hfile⟩

theorem entry?_put_file (contents : ByteArray) (other : Place) :
    Disk.entry? (d.put place (.file contents)) other =
      if other = place then some (.file contents) else d.entry? other :=
  have hplace : place ≠ [] := by
    obtain ⟨here, route, -, rfl⟩ := arrives_of_destination hout
    simp
  entry?_put d hplace _ other

/-- What is written into a file changes that file alone. -/
theorem sameBut_put (contents : ByteArray) : SameBut place d (d.put place (.file contents)) where
  home := home_put d place _
  elsewhere := by
    intro other hother
    rw [entry?_put_file hout, if_neg hother]
  here := by
    intro entry hentry
    rcases entry?_of_destination hout with hnone | ⟨old, hfile⟩
    · rw [hnone] at hentry
      cases hentry
    · rw [hfile] at hentry
      obtain rfl := Option.some.inj hentry
      rfl
  there := by
    intro entry hentry
    rw [entry?_put_file hout, if_pos rfl] at hentry
    obtain rfl := Option.some.inj hentry
    rfl

theorem arrives_put_iff (contents : ByteArray) {path : String} {here : Place} {route : Route} :
    Arrives (d.put place (.file contents)) path here route ↔ Arrives d path here route := by
  have happroach : (d.put place (.file contents)).approach path = .ok (here, route) ↔
      d.approach path = .ok (here, route) := (sameBut_put hout contents).approach_iff
  constructor
  · intro h
    exact ⟨happroach.mp h.approach, h.plain, h.bare, h.short⟩
  · intro h
    exact ⟨happroach.mpr h.approach, h.plain, h.bare, h.short⟩

theorem reaches_put_iff (contents : ByteArray) {here : Place} {name : String} {dest : Destination} :
    Reaches (d.put place (.file contents)) here name dest ↔ Reaches d here name dest := by
  have hsame := sameBut_put hout contents
  have hput := entry?_put_file hout contents (here ++ [name])
  by_cases hplace : here ++ [name] = place
  · -- the file itself: it was there or could be made, and now it is there
    subst hplace
    rw [if_pos rfl] at hput
    constructor
    · intro h
      cases h with
      | new hnone hopen => simp [hput] at hnone
      | device hdevice hthere => simp [hput] at hdevice
      | old hfile => exact reaches_file hout
    · intro h
      cases h with
      | new hnone hopen => exact .old hput
      | old hfile => exact .old hput
      | device hdevice hthere =>
        rcases entry?_of_destination hout with hnone | ⟨old, hfile⟩
        · simp [hnone] at hdevice
        · simp [hfile] at hdevice
  · rw [if_neg hplace] at hput
    have hsealed := hsame.isSealed_eq here
    exact ⟨.congr hput.symm hsealed.symm, .congr hput hsealed⟩

/-- What is written to a path goes where it went before a file was written. -/
theorem destination_put_iff (contents : ByteArray) {path : String} {dest : Destination} :
    (d.put place (.file contents)).destination path = .ok dest ↔ d.destination path = .ok dest := by
  constructor
  · intro h
    obtain ⟨here, route, hpath, hreaches⟩ := exists_reaches h
    exact ((reaches_put_iff hout contents).mp hreaches).destination_eq
      ((arrives_put_iff hout contents).mp hpath)
  · intro h
    obtain ⟨here, route, hpath, hreaches⟩ := exists_reaches h
    exact ((reaches_put_iff hout contents).mpr hreaches).destination_eq
      ((arrives_put_iff hout contents).mpr hpath)

/-- **A file reads as it was written.** -/
theorem read_put_self (contents : ByteArray) :
    (d.put place (.file contents)).read out = .ok contents := by
  obtain ⟨here, route, hpath, rfl⟩ := arrives_of_destination hout
  refine read_of_arrives ((arrives_put_iff hout contents).mpr hpath) ?_
  rw [entry?_put_file hout, if_pos rfl]

/-- **A file elsewhere reads as before.** -/
theorem read_put_of_ne (contents : ByteArray) {path : String} {other : Place}
    (hdest : d.destination path = .ok (.file other)) (hne : other ≠ place) {old : ByteArray}
    (hold : d.entry? other = some (.file old)) :
    (d.put place (.file contents)).read path = .ok old := by
  obtain ⟨here, route, hpath, rfl⟩ := arrives_of_destination hdest
  refine read_of_arrives ((arrives_put_iff hout contents).mpr hpath) ?_
  rw [entry?_put_file hout, if_neg hne, hold]

end Put

/-! ### Writing to a path -/

/-- Text can be written to a path: it leads to a file, or to a device that has room. -/
def Writable (d : Disk) (path : String) : Prop :=
  ∃ dest, d.destination path = .ok dest ∧ dest ≠ .device .full

/-- The disk after text was written to a path. -/
def written (d : Disk) (path text : String) : Disk :=
  match d.destination path with
  | .ok (.file place) => d.put place (.file text.toUTF8)
  | _ => d

/-- A path leads to no device. -/
def Regular (d : Disk) (path : String) : Prop :=
  ∀ dev, d.destination path ≠ .ok (.device dev)

/-- Two paths lead to one file. -/
def SameFile (d : Disk) (path path' : String) : Prop :=
  ∃ place, d.destination path = .ok (.file place) ∧ d.destination path' = .ok (.file place)

theorem written_of_file {d : Disk} {path : String} {place : Place}
    (h : d.destination path = .ok (.file place)) (text : String) :
    d.written path text = d.put place (.file text.toUTF8) := by
  rw [written, h]

theorem destination_written_iff {d : Disk} {path text other : String} {dest : Destination} :
    (d.written path text).destination other = .ok dest ↔ d.destination other = .ok dest := by
  unfold written
  split
  · next place hplace => exact destination_put_iff hplace _
  · rfl

theorem writable_written_iff {d : Disk} {path text other : String} :
    (d.written path text).Writable other ↔ d.Writable other := by
  simp only [Writable, destination_written_iff]

theorem regular_written_iff {d : Disk} {path text other : String} :
    (d.written path text).Regular other ↔ d.Regular other := by
  simp only [Regular, ne_eq, destination_written_iff]

theorem sameFile_written_iff {d : Disk} {path text other other' : String} :
    (d.written path text).SameFile other other' ↔ d.SameFile other other' := by
  simp only [SameFile, destination_written_iff]

theorem forall_writable_written {d : Disk} {path text : String} {outputs : List (String × String)}
    (h : ∀ output ∈ outputs, d.Writable output.1) :
    ∀ output ∈ outputs, (d.written path text).Writable output.1 :=
  fun output hmem => writable_written_iff.mpr (h output hmem)

theorem Writable.exists_file {d : Disk} {path : String} (h : d.Writable path)
    (hregular : d.Regular path) : ∃ place, d.destination path = .ok (.file place) := by
  obtain ⟨dest, hdest, -⟩ := h
  cases dest with
  | file place => exact ⟨place, hdest⟩
  | device dev => exact absurd hdest (hregular dev)

/-- Below a home directory that holds no device no path leads to one. -/
theorem regular_of_below {d : Disk} {path : String}
    (hbelow : ∀ here route, d.approach path = .ok (here, route) → d.home <+: here)
    (hfiles : ∀ place dev, d.home <+: place → d.entry? place ≠ some (.device dev)) :
    d.Regular path := by
  intro dev hdest
  obtain ⟨here, route, hpath, hreaches⟩ := exists_reaches hdest
  cases hreaches with
  | device hdevice hthere =>
    have hplace : d.home <+: here ++ [route.last] :=
      (hbelow here route hpath.approach).trans (List.prefix_append _ _)
    exact hfiles _ dev hplace hdevice

/-- Nothing changes but the file that the path leads to. -/
theorem entry?_written_of_ne {d : Disk} {path text : String} {place : Place}
    (h : Disk.entry? (d.written path text) place ≠ d.entry? place) :
    d.destination path = .ok (.file place) ∧
      Disk.entry? (d.written path text) place = some (.file text.toUTF8) := by
  cases hdest : d.destination path with
  | error cause => simp [written, hdest] at h
  | ok dest =>
    cases dest with
    | device dev => simp [written, hdest] at h
    | file out =>
      rw [written_of_file hdest, entry?_put_file hdest] at h ⊢
      by_cases hplace : place = out
      · subst hplace
        simp
      · simp [hplace] at h

theorem read_written_self {d : Disk} {path text : String} (hwritable : d.Writable path)
    (hregular : d.Regular path) : (d.written path text).read path = .ok text.toUTF8 := by
  obtain ⟨place, hplace⟩ := hwritable.exists_file hregular
  rw [written_of_file hplace]
  exact read_put_self hplace _

/-- What is written to a path is read from all paths to the same file. -/
theorem read_written_of_sameFile {d : Disk} {path path' text : String} (h : d.SameFile path path') :
    (d.written path' text).read path = .ok text.toUTF8 := by
  obtain ⟨place, hplace, hplace'⟩ := h
  rw [written_of_file hplace']
  exact read_put_self hplace _

/-- What was written first is still there after something else was written elsewhere. -/
theorem read_written_written {d : Disk} {path text path' text' : String}
    (hwritable : d.Writable path) (hregular : d.Regular path) (hne : ¬ d.SameFile path path') :
    ((d.written path text).written path' text').read path = .ok text.toUTF8 := by
  obtain ⟨place, hplace⟩ := hwritable.exists_file hregular
  have hfirst : (d.written path text).read path = .ok text.toUTF8 :=
    read_written_self hwritable hregular
  have hplace₁ : (d.written path text).destination path = .ok (.file place) :=
    destination_written_iff.mpr hplace
  cases hdest : (d.written path text).destination path' with
  | error cause => rw [written, hdest, hfirst]
  | ok dest =>
    cases dest with
    | device dev => rw [written, hdest, hfirst]
    | file place' =>
      have hother : place ≠ place' := by
        rintro rfl
        exact hne ⟨place, hplace, destination_written_iff.mp hdest⟩
      rw [written_of_file hdest]
      refine read_put_of_ne hdest _ hplace₁ hother ?_
      rw [written_of_file hplace, entry?_put_file hplace, if_pos rfl]

/-- The disk after texts were written to paths, one after another. -/
def writtenAll (d : Disk) (outputs : List (String × String)) : Disk :=
  outputs.foldl (fun d output => d.written output.1 output.2) d

theorem writable_writtenAll_iff {d : Disk} {outputs : List (String × String)} {path : String} :
    (d.writtenAll outputs).Writable path ↔ d.Writable path := by
  induction outputs generalizing d with
  | nil => rfl
  | cons output outputs ih => exact ih.trans writable_written_iff

end BytecodeAssembler.Disk
