import BytecodeAssembler.Proofs.Distinct
import BytecodeAssembler.Proofs.Linking

/-!
# What labels are called

Nothing in a session depends on what its labels are called, as long as different labels are called
differently. `rename f` calls every label by its image under `f`, in steps, in faults, in label
tables and in sessions, and leaves all else as it is.

A label table asks of two names only whether they are equal. So where `f` is injective on the names
that occur, a renamed table answers as the table does (`Labels.define_rename`), and a renamed
session takes a renamed step as the session takes the step (`Session.step_rename`). The names that
occur in a session are those of its steps (`Session.within_step`), which carries this through a
whole run (`Session.attempt_rename`).
-/

namespace BytecodeAssembler

/-! ### Renaming -/

/-- The operation with the label it jumps to renamed. -/
def Operation.rename (f : String → String) : Operation → Operation
  | jump target => jump (target.map f)
  | jumpi target => jumpi (target.map f)
  | o => o

namespace Step

/-- The step with its label renamed. -/
def rename (f : String → String) : Step → Step
  | place name => place (f name)
  | perform o => perform (o.rename f)

/-- The labels that a step places or refers to. -/
def names (a : Step) : Set String :=
  {name | a.label? = some name ∨ a.reference? = some name}

end Step

/-- The fault with the labels in it renamed. -/
def Fault.rename (f : String → String) : Fault → Fault
  | duplicateLabel name => duplicateLabel (f name)
  | unresolvedLabels names => unresolvedLabels (names.map f)
  | offsetOverflow name offset => offsetOverflow (f name) offset
  | fault => fault

namespace Labels

/-- The label table with its names renamed. -/
def rename (f : String → String) (t : Labels) : Labels :=
  ⟨t.defined.map (Prod.map f id), t.pending.map (Prod.map f id)⟩

/-- The names that wait, by their earliest site, each with its sites. -/
def pendingTable (t : Labels) : List (String × List Nat) :=
  t.unresolved.map fun name => (name, t.sites name)

/-- All names in a label table are among `names`. -/
structure Within (t : Labels) (names : Set String) : Prop where
  defined : ∀ entry ∈ t.defined, entry.1 ∈ names
  pending : ∀ entry ∈ t.pending, entry.1 ∈ names

namespace Within

variable {t : Labels} {names : Set String} (h : t.Within names) {name : String}
  (hname : name ∈ names)
include h hname

theorem defer (site : Nat) : (t.defer name site).Within names := by
  refine ⟨h.defined, ?_⟩
  intro entry hentry
  rcases Array.mem_push.mp hentry with hold | rfl
  · exact h.pending entry hold
  · exact hname

theorem define {offset : Nat} {sites : List Nat} {labels : Labels}
    (hdefine : t.define name offset = .ok (sites, labels)) : labels.Within names := by
  unfold Labels.define at hdefine
  split at hdefine
  · cases hdefine
  · obtain ⟨-, rfl⟩ := Prod.mk.inj (Except.ok.inj hdefine)
    refine ⟨?_, ?_⟩
    · intro entry hentry
      rcases Array.mem_push.mp hentry with hold | rfl
      · exact h.defined entry hold
      · exact hname
    · intro entry hentry
      exact h.pending entry (Array.mem_filter.mp hentry).1

end Within

end Labels

/-- The session with the names in its label table renamed. -/
def Session.rename (f : String → String) (s : Session) : Session :=
  ⟨s.code, s.labels.rename f⟩

section Renaming

variable {f : String → String} {names : Set String} (hf : Set.InjOn f names)
include hf

/-! ### Label tables -/

theorem beq_rename {x y : String} (hx : x ∈ names) (hy : y ∈ names) : (f x == f y) = (x == y) := by
  rw [Bool.eq_iff_iff, beq_iff_eq, beq_iff_eq]
  exact hf.eq_iff hx hy

theorem lookup_rename {labels : List (String × Nat)} (hlabels : ∀ entry ∈ labels, entry.1 ∈ names)
    {name : String} (hname : name ∈ names) :
    (labels.map (Prod.map f id)).lookup (f name) = labels.lookup name := by
  induction labels with
  | nil => rfl
  | cons entry labels ih =>
    obtain ⟨hentry, hrest⟩ := List.forall_mem_cons.mp hlabels
    obtain ⟨label, offset⟩ := entry
    rw [List.map_cons, Prod.map_apply, List.lookup_cons, List.lookup_cons,
      beq_rename hf hname hentry, ih hrest]
    rfl

namespace Labels

variable {t : Labels} (ht : t.Within names) {name : String} (hname : name ∈ names)
include ht hname

theorem offset?_rename : (t.rename f).offset? (f name) = t.offset? name := by
  rw [offset?_eq_lookup, offset?_eq_lookup, rename, Array.toList_map]
  have hlabels : ∀ entry ∈ t.defined.toList, entry.1 ∈ names := fun entry hentry =>
    ht.defined entry (Array.mem_toList_iff.mp hentry)
  exact lookup_rename hf hlabels hname

theorem sites_rename : (t.rename f).sites (f name) = t.sites name := by
  rw [sites, sites, rename, Array.toList_map, List.filter_map, List.map_map]
  have hsame : t.pending.toList.filter ((fun entry => entry.1 == f name) ∘ Prod.map f id) =
      t.pending.toList.filter fun entry => entry.1 == name := by
    refine List.filter_congr fun entry hentry => ?_
    exact beq_rename hf (ht.pending entry (Array.mem_toList_iff.mp hentry)) hname
  rw [hsame]
  rfl

theorem pending_rename :
    (t.rename f).pending.filter (fun entry => entry.1 != f name) =
      (t.pending.filter fun entry => entry.1 != name).map (Prod.map f id) := by
  apply Array.toList_inj.mp
  rw [Array.toList_filter, Array.toList_map, Array.toList_filter, rename, Array.toList_map,
    List.filter_map]
  congr 1
  refine List.filter_congr fun entry hentry => ?_
  exact congrArg not (beq_rename hf (ht.pending entry (Array.mem_toList_iff.mp hentry)) hname)

omit hname in
theorem unresolved_rename : (t.rename f).unresolved = t.unresolved.map f := by
  have hinj : Set.InjOn f {name | name ∈ t.pending.toList.map Prod.fst} := by
    refine hf.mono fun name hname => ?_
    obtain ⟨entry, hentry, rfl⟩ := List.mem_map.mp hname
    exact ht.pending entry (Array.mem_toList_iff.mp hentry)
  rw [unresolved, unresolved, ← eraseDups_map hinj, rename, Array.toList_map, List.map_map,
    List.map_map]
  rfl

omit hname in
theorem pendingTable_rename : (t.rename f).pendingTable = t.pendingTable.map (Prod.map f id) := by
  rw [pendingTable, pendingTable, unresolved_rename hf ht, List.map_map, List.map_map]
  refine List.map_congr_left fun name hname => ?_
  obtain ⟨entry, hentry, rfl⟩ := List.mem_map.mp (List.mem_eraseDups.mp hname)
  have hentry' := ht.pending entry (Array.mem_toList_iff.mp hentry)
  show (f entry.1, (t.rename f).sites (f entry.1)) = (f entry.1, t.sites entry.1)
  rw [sites_rename hf ht hentry']

/-- A renamed table places a renamed label where the table places the label. -/
theorem define_rename (offset : Nat) :
    (t.rename f).define (f name) offset =
      match t.define name offset with
      | .ok (sites, labels) => .ok (sites, labels.rename f)
      | .error fault => .error (fault.rename f) := by
  have hoffset := offset?_rename hf ht hname
  cases hplaced : t.offset? name with
  | some placed =>
    rw [hplaced] at hoffset
    rw [define_of_some (by rw [hoffset]; rfl), define_of_some (by rw [hplaced]; rfl)]
    rfl
  | none =>
    rw [hplaced] at hoffset
    by_cases hle : offset ≤ maxOffset
    · rw [define_of_le hoffset hle, define_of_le hplaced hle, sites_rename hf ht hname,
        pending_rename hf ht hname]
      simp only [rename, Array.map_push]
      rfl
    · have hlt : maxOffset < offset := Nat.lt_of_not_le hle
      rw [define_of_lt hoffset hlt, define_of_lt hplaced hlt]
      rfl

omit hname in
theorem checkResolved_rename :
    (t.rename f).checkResolved = t.checkResolved.mapError (Fault.rename f) := by
  have hempty : (t.rename f).pending.isEmpty = t.pending.isEmpty := by
    simp [rename, Array.isEmpty]
  rw [checkResolved, checkResolved, hempty, unresolved_rename hf ht]
  split
  · rfl
  · rfl

end Labels

namespace Session

/-! ### Steps -/

variable {s : Session} (hs : s.labels.Within names)
include hs

theorem place_rename {name : String} (hname : name ∈ names) :
    (s.rename f).place (f name) =
      ((s.place name).1.rename f, (s.place name).2.map (Fault.rename f)) := by
  have hdefine := Labels.define_rename hf hs hname s.code.size
  have hlabels : (s.rename f).labels = s.labels.rename f := rfl
  have hcode : (s.rename f).code = s.code := rfl
  rw [place, place, hlabels, hcode, hdefine]
  cases s.labels.define name s.code.size with
  | error fault => rfl
  | ok placed => rfl

theorem pushTarget_rename {name : String} (hname : name ∈ names) :
    (s.rename f).pushTarget (f name) = (s.pushTarget name).rename f := by
  have hoffset := Labels.offset?_rename hf hs hname
  have hlabels : (s.rename f).labels = s.labels.rename f := rfl
  rw [pushTarget, pushTarget, hlabels, hoffset]
  cases s.labels.offset? name with
  | some offset => rfl
  | none => simp [emit, rename, Labels.defer, Labels.rename]

theorem jumpBy_rename (o : Opcode) {target : Option String}
    (htarget : ∀ name ∈ target, name ∈ names) :
    (s.rename f).jumpBy o (target.map f) = (s.jumpBy o target).rename f := by
  cases target with
  | none => rfl
  | some name =>
    show ((s.rename f).pushTarget (f name)).emit (.op o) = _
    rw [pushTarget_rename hf hs (htarget name rfl)]
    rfl

/-- **A renamed session takes a renamed step as the session takes the step.** -/
theorem step_rename {a : Step} (ha : a.names ⊆ names) :
    (s.rename f).step (a.rename f) =
      ((s.step a).1.rename f, (s.step a).2.map (Fault.rename f)) := by
  rcases a with name | (o | v | n | n | target | target)
  case place => exact place_rename hf hs (ha (Or.inl rfl))
  case perform.push =>
    simp only [Step.rename, Operation.rename, step, perform]
    cases hencode : v.encode with
    | ok immediate => rfl
    | error fault =>
      obtain ⟨operand, rfl⟩ := Operand.encode_eq_error hencode
      rfl
  case perform.dup =>
    simp only [Step.rename, Operation.rename, step, perform]
    split
    · rfl
    · rfl
  case perform.swap =>
    simp only [Step.rename, Operation.rename, step, perform]
    split
    · rfl
    · rfl
  case perform.jump =>
    have htarget : ∀ name ∈ target, name ∈ names := fun name hname => ha (Or.inr hname)
    simp only [Step.rename, Operation.rename, step, perform, jumpBy_rename hf hs _ htarget]
    rfl
  case perform.jumpi =>
    have htarget : ∀ name ∈ target, name ∈ names := fun name hname => ha (Or.inr hname)
    simp only [Step.rename, Operation.rename, step, perform, jumpBy_rename hf hs _ htarget]
    rfl
  case perform.op => rfl

omit hf in
theorem within_jumpBy (o : Opcode) {target : Option String}
    (htarget : ∀ name ∈ target, name ∈ names) : (s.jumpBy o target).labels.Within names := by
  cases target with
  | none => exact hs
  | some name =>
    show (s.pushTarget name).labels.Within names
    unfold pushTarget
    split
    · exact hs
    · exact hs.defer (htarget name rfl) _

omit hf in
theorem within_place {name : String} (hname : name ∈ names) :
    (s.place name).1.labels.Within names := by
  unfold place
  split
  · exact hs
  · next hdefine => exact hs.define hname hdefine

omit hf in
/-- The names in a session are those of its steps. -/
theorem within_step {a : Step} (ha : a.names ⊆ names) : (s.step a).1.labels.Within names := by
  rcases a with name | (o | v | n | n | target | target)
  case place => exact within_place hs (ha (Or.inl rfl))
  case perform.op => exact hs
  case perform.push =>
    simp only [step, perform]
    split
    · exact hs
    · exact hs
  case perform.dup =>
    simp only [step, perform]
    split
    · exact hs
    · exact hs
  case perform.swap =>
    simp only [step, perform]
    split
    · exact hs
    · exact hs
  case perform.jump => exact within_jumpBy hs .JUMP fun name hname => ha (Or.inr hname)
  case perform.jumpi => exact within_jumpBy hs .JUMPI fun name hname => ha (Or.inr hname)

/-! ### Runs -/

/-- **A renamed run is the run, renamed.** -/
theorem attempt_map_rename {as : List Step} (has : ∀ a ∈ as, a.names ⊆ names) :
    (s.rename f).attempt (as.map (Step.rename f)) =
        ((s.attempt as).1.rename f, (s.attempt as).2.map (Option.map (Fault.rename f))) ∧
      (s.attempt as).1.labels.Within names := by
  induction as generalizing s with
  | nil => exact ⟨rfl, hs⟩
  | cons a as ih =>
    obtain ⟨ha, hrest⟩ := List.forall_mem_cons.mp has
    obtain ⟨hrun, hwithin⟩ := ih (within_step hs ha) hrest
    refine ⟨?_, hwithin⟩
    rw [List.map_cons, attempt_cons, attempt_cons, step_rename hf hs ha, hrun]
    rfl

end Session

end Renaming

namespace Session

/-- **Nothing depends on what labels are called.** If steps are renamed so that labels with
different names keep different names, then after any number of them the renamed run has said of each
step what the run said, of the renamed label; it has the same code; and its labels, its waiting
names with their sites, and what it says of names that still wait are those of the run, renamed, in
the same order. -/
theorem attempt_rename {f : String → String} {as : List Step}
    (hf : Set.InjOn f {name | ∃ a ∈ as, name ∈ a.names}) (k : Nat) :
    let s := (attempt {} (as.take k)).1
    let t := (attempt {} ((as.map (Step.rename f)).take k)).1
    (attempt {} ((as.map (Step.rename f)).take k)).2 =
        (attempt {} (as.take k)).2.map (Option.map (Fault.rename f)) ∧
      t.code = s.code ∧
      t.labels.defined.toList = s.labels.defined.toList.map (Prod.map f id) ∧
      t.labels.pendingTable = s.labels.pendingTable.map (Prod.map f id) ∧
      t.labels.checkResolved = s.labels.checkResolved.mapError (Fault.rename f) := by
  intro s t
  have hempty : (({} : Session).labels).Within {name | ∃ a ∈ as, name ∈ a.names} := by
    refine ⟨?_, ?_⟩
    · intro entry hentry
      exact absurd hentry (Array.not_mem_empty entry)
    · intro entry hentry
      exact absurd hentry (Array.not_mem_empty entry)
  have hnames : ∀ a ∈ as.take k, a.names ⊆ {name | ∃ a ∈ as, name ∈ a.names} := by
    intro a ha name hname
    exact ⟨a, List.mem_of_mem_take ha, hname⟩
  obtain ⟨hrun, hwithin⟩ := attempt_map_rename hf hempty hnames
  have hrun : attempt {} ((as.map (Step.rename f)).take k) =
      (s.rename f, (attempt {} (as.take k)).2.map (Option.map (Fault.rename f))) := by
    have hfresh : rename f {} = {} := by simp [rename, Labels.rename]
    rw [hfresh] at hrun
    rw [← List.map_take]
    exact hrun
  have ht : t = s.rename f := congrArg Prod.fst hrun
  refine ⟨congrArg Prod.snd hrun, ?_, ?_, ?_, ?_⟩
  · rw [ht]
    rfl
  · rw [ht]
    exact Array.toList_map
  · rw [ht]
    exact Labels.pendingTable_rename hf hwithin
  · rw [ht]
    exact Labels.checkResolved_rename hf hwithin

/-- Two names that change places, one of which waits, and a label that is placed twice. -/
theorem attempt_rename_exchanged :
    let f : String → String := Equiv.swap "a" "b"
    let as : List Step := [.perform (.jump (some "a")), .place "b", .perform (.jumpi (some "c")),
      .place "b", .place "c", .perform (.jump (some "a"))]
    let t := (attempt {} (as.map (Step.rename f))).1
    Set.InjOn f {name | ∃ a ∈ as, name ∈ a.names} ∧
      (attempt {} (as.map (Step.rename f))).2 =
        [none, none, none, some (.duplicateLabel "a"), none, none] ∧
      t.code = (attempt {} as).1.code ∧
      t.labels.defined.toList = [("a", 5), ("c", 11)] ∧
      t.labels.pendingTable = [("b", [1, 13])] ∧
      t.labels.checkResolved = .error (.unresolvedLabels ["b"]) := by
  intro f as t
  have hf : Set.InjOn f {name | ∃ a ∈ as, name ∈ a.names} := (Equiv.swap "a" "b").injective.injOn
  have hall : as.take 6 = as := rfl
  have hall' : (as.map (Step.rename f)).take 6 = as.map (Step.rename f) := rfl
  have hrename := attempt_rename hf 6
  simp only [hall, hall'] at hrename
  obtain ⟨hsaid, hcode, hdefined, hpending, hresolved⟩ := hrename
  have ht : t = (attempt {} (as.map (Step.rename f))).1 := rfl
  refine ⟨hf, hsaid.trans (by decide), hcode, ?_, ?_, ?_⟩
  · rw [ht, hdefined]
    decide
  · rw [ht, hpending]
    decide
  · rw [ht, hresolved]
    decide

end Session

end BytecodeAssembler
