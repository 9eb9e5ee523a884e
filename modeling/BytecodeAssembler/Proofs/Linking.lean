import BytecodeAssembler.Proofs.Journal
import BytecodeAssembler.Proofs.TwoPass

/-!
# A session stays linked

After the steps `as` a session holds what two passes over `as` would give, with every reference to a
label that is not placed yet still waiting:

* `references` — the references of steps, with the sites where their offsets belong;
* `waiting` — those of them whose label is not placed;
* `Linked as s` — code, labels and waiting sites of `s` are those of `as`.

Steps that are taken keep this (`Linked.step`), and steps that are refused leave the session as it
was (`Linked.step_refused`). The one step that rewrites code is the placing of a label. It turns the
code under the old table into the code under the new one, because the sites that wait for the label
are exactly the places where the two differ (`toList_patch`).
-/

namespace BytecodeAssembler

open TwoPass

namespace TwoPass

/-! ### References -/

/-- The references of steps from an offset on: names, with the sites where their offsets belong. -/
def references (offset : Nat) (as : List Step) : List (String × Nat) :=
  (layout offset as).filterMap fun (pc, a) => a.reference?.map fun name => (name, pc + 1)

/-- The references whose labels are not placed. -/
def waiting (as : List Step) : List (String × Nat) :=
  (references 0 as).filter fun entry => ((table as).lookup entry.1).isNone

theorem references_cons (offset : Nat) (a : Step) (as : List Step) :
    references offset (a :: as) =
      (a.reference?.map fun name => (name, offset + 1)).toList ++
        references (offset + a.width) as := by
  cases h : a.reference? <;> simp [references, layout, h]

theorem references_append (offset : Nat) (as bs : List Step) :
    references offset (as ++ bs) =
      references offset as ++ references (offset + extent as) bs := by
  simp [references, layout_append]

theorem references_map_fst (offset : Nat) (as : List Step) :
    (references offset as).map Prod.fst = as.filterMap Step.reference? := by
  induction as generalizing offset with
  | nil => rfl
  | cons a as ih =>
    rw [references_cons, List.map_append, ih]
    cases h : a.reference? <;> simp [h]

/-- Placing a label ends the waiting for it, and for no other. -/
theorem waiting_place {as : List Step} {name : String} (h : (table as).lookup name = none) :
    waiting (as ++ [.place name]) = (waiting as).filter fun entry => entry.1 != name := by
  rw [waiting, waiting, references_append, table_place, List.filter_filter]
  have hnone : references (0 + extent as) [.place name] = [] := rfl
  rw [hnone, List.append_nil]
  refine List.filter_congr fun entry _ => ?_
  by_cases hname : entry.1 = name
  · rw [hname, lookup_append_self _ h]
    simp
  · rw [lookup_append_of_ne _ hname]
    simp [hname]

theorem waiting_perform (as : List Step) (o : Operation) :
    waiting (as ++ [.perform o]) =
      waiting as ++ (references (extent as) [.perform o]).filter fun entry =>
        ((table as).lookup entry.1).isNone := by
  rw [waiting, waiting, references_append, table_perform, List.filter_append, Nat.zero_add]

theorem waiting_map_fst_eraseDups (as : List Step) :
    ((waiting as).map Prod.fst).eraseDups = missing as := by
  have hplaced : ∀ name, ((table as).lookup name).isNone = decide (Step.place name ∉ as) := by
    intro name
    rw [Bool.eq_iff_iff, Option.isNone_iff_eq_none, lookup_table_eq_none_iff, decide_eq_true_iff]
  rw [missing, waiting, ← references_map_fst 0, List.filter_map]
  simp only [hplaced]
  rfl

/-- The sites of steps that wait for a name. -/
def sitesOf (name : String) (offset : Nat) (as : List Step) : List Nat :=
  ((references offset as).filter fun entry => entry.1 == name).map Prod.snd

theorem sitesOf_cons_self {name : String} {a : Step} (h : a.reference? = some name) (offset : Nat)
    (as : List Step) :
    sitesOf name offset (a :: as) = (offset + 1) :: sitesOf name (offset + a.width) as := by
  simp [sitesOf, references_cons, h]

theorem sitesOf_cons_of_ne {name : String} {a : Step} (h : a.reference? ≠ some name) (offset : Nat)
    (as : List Step) : sitesOf name offset (a :: as) = sitesOf name (offset + a.width) as := by
  cases hr : a.reference? with
  | none => simp [sitesOf, references_cons, hr]
  | some label =>
    have hne : label ≠ name := fun heq => h (by rw [hr, heq])
    simp [sitesOf, references_cons, hr, hne]

end TwoPass

namespace Labels

theorem offset?_eq_lookup (t : Labels) (name : String) :
    t.offset? name = t.defined.toList.lookup name := by
  rw [offset?, ← Array.find?_toList]
  induction t.defined.toList with
  | nil => rfl
  | cons entry entries ih =>
    obtain ⟨label, offset⟩ := entry
    by_cases h : label = name
    · subst h
      simp
    · have hne : (name == label) = false := by simpa using Ne.symm h
      simp [List.lookup_cons, h, hne, ih]

theorem define_of_some {t : Labels} {name : String} (h : (t.offset? name).isSome) (offset : Nat) :
    t.define name offset = .error (.duplicateLabel name) := by
  rw [define, refusal?, if_pos h]

theorem define_of_lt {t : Labels} {name : String} {offset : Nat} (h : t.offset? name = none)
    (hlt : maxOffset < offset) : t.define name offset = .error (.offsetOverflow name offset) := by
  have hnone : ¬ (t.offset? name).isSome = true := by simp [h]
  rw [define, refusal?, if_neg hnone, if_pos hlt]

theorem define_of_le {t : Labels} {name : String} {offset : Nat} (h : t.offset? name = none)
    (hle : offset ≤ maxOffset) :
    t.define name offset = .ok (t.sites name,
      ⟨t.defined.push (name, offset), t.pending.filter fun entry => entry.1 != name⟩) := by
  have hnone : ¬ (t.offset? name).isSome = true := by simp [h]
  rw [define, refusal?, if_neg hnone, if_neg (Nat.not_lt.mpr hle)]

end Labels

namespace Session

/-! ### Writing into sites -/

theorem toList_overwrite {code : Array UInt8} (before old after : List UInt8) {bytes : List UInt8}
    (hcode : code.toList = before ++ old ++ after) (hlen : old.length = bytes.length) :
    (overwrite code before.length bytes).toList = before ++ bytes ++ after := by
  induction bytes generalizing code before old with
  | nil =>
    obtain rfl : old = [] := List.eq_nil_of_length_eq_zero hlen
    exact hcode
  | cons b bytes ih =>
    obtain ⟨x, old, rfl⟩ := List.exists_cons_of_length_eq_add_one hlen
    have hset : (code.setIfInBounds before.length b).toList = (before ++ [b]) ++ old ++ after := by
      rw [Array.toList_setIfInBounds, hcode]
      simp
    have hrest := ih (before ++ [b]) old hset (by simpa using hlen)
    rw [List.length_append, List.length_singleton] at hrest
    rw [overwrite, hrest]
    simp

/-- Writing an offset behind the `PUSH3` of a reference gives the bytes it has under the table with
the name at that offset. -/
theorem toList_overwrite_reference {labels : List (String × Nat)} {name : String}
    (h : labels.lookup name = none) (target : Nat) {a : Step} (ha : a.reference? = some name)
    {code : Array UInt8} {before after : List UInt8}
    (hcode : code.toList = before ++ bytesOf labels a ++ after) :
    (overwrite code (before.length + 1) (encodeOffset target)).toList =
      before ++ bytesOf (labels ++ [(name, target)]) a ++ after := by
  obtain ⟨o, -, hbytes⟩ := bytesOf_of_reference ha
  have hold : bytesOf labels a = 0x62 :: [0, 0, 0] ++ [o.byte] := by
    rw [hbytes, operand, h]
  have hnew : bytesOf (labels ++ [(name, target)]) a =
      0x62 :: encodeOffset target ++ [o.byte] := by
    rw [hbytes, operand, lookup_append_self target h]
    rfl
  have hsite : (before ++ [0x62]).length = before.length + 1 := by simp
  have hsplit : code.toList = (before ++ [0x62]) ++ [0, 0, 0] ++ ([o.byte] ++ after) := by
    rw [hcode, hold]
    simp
  have hlen : ([0, 0, 0] : List UInt8).length = (encodeOffset target).length := rfl
  rw [← hsite, toList_overwrite (before ++ [0x62]) [0, 0, 0] _ hsplit hlen, hnew]
  simp

/-- A step that refers to something else does not see a new entry of the table. -/
theorem bytesOf_append_of_ne {name : String} {a : Step} (ha : a.reference? ≠ some name)
    (labels : List (String × Nat)) (target : Nat) :
    bytesOf (labels ++ [(name, target)]) a = bytesOf labels a := by
  refine (bytesOf_congr fun label hlabel => ?_).symm
  have hne : label ≠ name := fun heq => ha (by rw [hlabel, heq])
  rw [lookup_append_of_ne target hne]

/-- Writing an offset into the sites that wait for a name gives the code under the table with the
name at that offset. -/
theorem toList_patch {labels : List (String × Nat)} {name : String}
    (h : labels.lookup name = none) (target : Nat) (as : List Step) :
    ∀ (code : Array UInt8) (before after : List UInt8),
      code.toList = before ++ as.flatMap (bytesOf labels) ++ after →
      (patch code (encodeOffset target) (sitesOf name before.length as)).toList =
        before ++ as.flatMap (bytesOf (labels ++ [(name, target)])) ++ after := by
  induction as with
  | nil =>
    intro code before after hcode
    simpa [patch, sitesOf, references, layout] using hcode
  | cons a as ih =>
    intro code before after hcode
    have hsplit : code.toList =
        before ++ bytesOf labels a ++ (as.flatMap (bytesOf labels) ++ after) := by
      rw [hcode, List.flatMap_cons]
      simp only [List.append_assoc]
    have hwidth : (before ++ bytesOf (labels ++ [(name, target)]) a).length =
        before.length + a.width := by
      rw [List.length_append, length_bytesOf]
    by_cases ha : a.reference? = some name
    · -- the operand of this step waits, and is overwritten before the sites behind it
      have hover := toList_overwrite_reference h target ha hsplit
      have hrest := ih _ _ _ (hover.trans (List.append_assoc _ _ _).symm)
      rw [hwidth] at hrest
      rw [sitesOf_cons_self ha, patch, List.foldl_cons, ← patch, hrest, List.flatMap_cons]
      simp only [List.append_assoc]
    · rw [← bytesOf_append_of_ne ha labels target, ← List.append_assoc] at hsplit
      have hrest := ih _ _ _ hsplit
      rw [hwidth] at hrest
      rw [sitesOf_cons_of_ne ha, hrest, List.flatMap_cons]
      simp only [List.append_assoc]

/-! ### Linked sessions -/

/-- Code, labels and waiting sites of a session are those of steps that can be taken in turn. -/
structure Linked (as : List Step) (s : Session) : Prop where
  lawful : Lawful as
  code : s.code.toList = TwoPass.code as
  defined : s.labels.defined.toList = table as
  pending : s.labels.pending.toList = waiting as

theorem linked_nil : Linked [] {} := ⟨lawful_nil, rfl, rfl, rfl⟩

namespace Linked

variable {as : List Step} {s : Session}

theorem size (h : Linked as s) : s.size = extent as := by
  rw [Session.size, ← Array.length_toList, h.code, length_code]

theorem offset? (h : Linked as s) (name : String) :
    s.labels.offset? name = (table as).lookup name := by
  rw [Labels.offset?_eq_lookup, h.defined]

theorem sites (h : Linked as s) {name : String} (hname : (table as).lookup name = none) :
    s.labels.sites name = sitesOf name 0 as := by
  rw [Labels.sites, h.pending, waiting, List.filter_filter, sitesOf]
  congr 1
  refine List.filter_congr fun entry _ => ?_
  by_cases hentry : entry.1 = name
  · simp only [hentry, hname, beq_self_eq_true, Option.isNone_none, Bool.and_true]
  · have hne : (entry.1 == name) = false := by simpa using hentry
    simp only [hne, Bool.false_and]

theorem unresolved (h : Linked as s) : s.labels.unresolved = missing as := by
  rw [Labels.unresolved, h.pending, waiting_map_fst_eraseDups]

/-! ### Steps that are taken -/

theorem perform_of_append (h : Linked as s) {o : Operation} {t : Session}
    (ha : ¬ Refused as (.perform o))
    (hcode : t.code.toList = s.code.toList ++ bytesOf (table as) (.perform o))
    (hdefined : t.labels.defined = s.labels.defined)
    (hpending : t.labels.pending.toList = s.labels.pending.toList ++
      (references (extent as) [.perform o]).filter fun entry =>
        ((table as).lookup entry.1).isNone) : Linked (as ++ [.perform o]) t where
  lawful := h.lawful.concat ha
  code := by rw [hcode, h.code, code_perform]
  defined := by rw [hdefined, h.defined, table_perform]
  pending := by rw [hpending, h.pending, waiting_perform]

theorem emit (h : Linked as s) {o : Operation} (ha : ¬ Refused as (.perform o))
    (ho : o.target? = none) {i : Instr} (hbytes : bytesOf (table as) (.perform o) = i.toBytes) :
    Linked (as ++ [.perform o]) (s.emit i) := by
  refine h.perform_of_append ha ?_ rfl ?_
  · rw [toList_emit, hbytes]
  · simp [references, layout, Step.reference?, ho, Session.emit]

theorem pushTarget (h : Linked as s) (name : String) :
    (s.pushTarget name).code.toList = s.code.toList ++ 0x62 :: operand (table as) name ∧
      (s.pushTarget name).labels.defined = s.labels.defined ∧
      (s.pushTarget name).labels.pending.toList = s.labels.pending.toList ++
        [(name, extent as + 1)].filter fun entry => ((table as).lookup entry.1).isNone := by
  have hsize : s.code.size = extent as := h.size
  rw [Session.pushTarget, h.offset?]
  cases hlookup : (table as).lookup name with
  | some offset =>
    have hlen : (encodeOffset offset).length = 3 := Bytes.length_bigEndian 3 offset
    refine ⟨?_, rfl, ?_⟩
    · rw [toList_emit, toBytes_push_of_length hlen, operand, hlookup]
      rfl
    · simp [Session.emit, hlookup]
  | none =>
    refine ⟨?_, rfl, ?_⟩
    · rw [toList_emit, toBytes_push_of_length rfl, operand, hlookup]
      rfl
    · simp [Session.emit, Labels.defer, hlookup, hsize]

theorem jumpBy (h : Linked as s) {o : Operation} {opcode : Opcode} {target : Option String}
    (ha : ¬ Refused as (.perform o)) (ho : o.target? = target)
    (hbytes : bytesOf (table as) (.perform o) = bytesOfJump (table as) opcode.byte target) :
    Linked (as ++ [.perform o]) (s.jumpBy opcode target) := by
  cases target with
  | none => exact h.emit ha ho hbytes
  | some name =>
    obtain ⟨hcode, hdefined, hpending⟩ := h.pushTarget name
    refine h.perform_of_append ha ?_ hdefined ?_
    · rw [Session.jumpBy, toList_emit, hcode, hbytes]
      simp [bytesOfJump, Instr.toBytes, Instr.opcode]
    · rw [references_cons, Step.reference?, ho]
      exact hpending

theorem place (h : Linked as s) {name : String} (ha : ¬ Refused as (.place name))
    (hname : (table as).lookup name = none) :
    Linked (as ++ [.place name])
      ⟨patch (s.code.push Opcode.JUMPDEST.byte) (encodeOffset s.code.size) (s.labels.sites name),
        ⟨s.labels.defined.push (name, s.code.size),
          s.labels.pending.filter fun entry => entry.1 != name⟩⟩ where
  lawful := h.lawful.concat ha
  code := by
    -- the JUMPDEST is behind all sites, so patching them is patching the code in front of it
    have hsize : s.code.size = extent as := h.size
    have hpush : (s.code.push Opcode.JUMPDEST.byte).toList =
        [] ++ as.flatMap (bytesOf (table as)) ++ [0x5B] := by
      rw [Array.toList_push, h.code]
      rfl
    rw [h.sites hname, code_place, hsize]
    exact toList_patch hname (extent as) as _ [] [0x5B] hpush
  defined := by
    have hsize : s.code.size = extent as := h.size
    rw [Array.toList_push, h.defined, table_place, hsize]
  pending := by
    rw [Array.toList_filter, h.pending, waiting_place hname]

/-- Placing a label that is not refused. -/
theorem step_place (h : Linked as s) {name : String} (ha : ¬ Refused as (.place name)) :
    s.step (.place name) =
      (⟨patch (s.code.push Opcode.JUMPDEST.byte) (encodeOffset s.code.size) (s.labels.sites name),
        ⟨s.labels.defined.push (name, s.code.size),
          s.labels.pending.filter fun entry => entry.1 != name⟩⟩, none) := by
  obtain ⟨hnew, hle⟩ := not_or.mp ha
  have hoffset := h.offset? name
  rw [lookup_table_eq_none_iff.mpr hnew] at hoffset
  have hle : s.code.size ≤ maxOffset := by
    have hsize : s.code.size = extent as := h.size
    rw [hsize]
    exact Nat.not_lt.mp hle
  rw [Session.step, Session.place, Labels.define_of_le hoffset hle]

/-- **A step that is not refused is taken**, and the session stays linked. -/
theorem step (h : Linked as s) {a : Step} (ha : ¬ Refused as a) :
    (s.step a).2 = none ∧ Linked (as ++ [a]) (s.step a).1 := by
  have hbytes := bytesOf_eq_flatten ha (table as)
  rcases a with name | (o | v | n | n | target | target)
  case place =>
    rw [h.step_place ha]
    exact ⟨rfl, h.place ha (lookup_table_eq_none_iff.mpr (not_or.mp ha).1)⟩
  case perform.op => exact ⟨rfl, h.emit ha rfl hbytes⟩
  case perform.push =>
    obtain ⟨hne, hlt⟩ := not_or.mp ha
    rw [Session.step, Session.perform, Operand.encode_of_lt hne (Nat.not_le.mp hlt)]
    exact ⟨rfl, h.emit ha rfl (by simpa [Step.instrs] using hbytes)⟩
  case perform.dup =>
    have hn : ¬ 15 < n.toNat := ha
    have hlt : n.toNat < stackWindow := by rw [stackWindow]; omega
    rw [Session.step, Session.perform, if_pos hlt]
    exact ⟨rfl, h.emit ha rfl (by simpa [Step.instrs] using hbytes)⟩
  case perform.swap =>
    obtain ⟨hlow, hhigh⟩ := not_or.mp ha
    rw [Session.step, Session.perform, if_pos ⟨Nat.not_lt.mp hlow, Nat.not_lt.mp hhigh⟩]
    exact ⟨rfl, h.emit ha rfl (by simpa [Step.instrs] using hbytes)⟩
  case perform.jump => exact ⟨rfl, h.jumpBy ha rfl rfl⟩
  case perform.jumpi => exact ⟨rfl, h.jumpBy ha rfl rfl⟩

/-! ### Steps that are refused -/

/-- **A step that is refused leaves the session as it was.** -/
theorem step_refused (h : Linked as s) {a : Step} (ha : Refused as a) :
    ∃ fault, s.step a = (s, some fault) := by
  rcases a with name | (o | v | n | n | target | target)
  case place =>
    have hsize : s.code.size = extent as := h.size
    have hoffset := h.offset? name
    by_cases hplaced : Step.place name ∈ as
    · have hsome : (s.labels.offset? name).isSome := by
        rw [hoffset, ← Option.not_isNone, Bool.not_eq_true', Option.isNone_eq_false_iff,
          ← Option.ne_none_iff_isSome]
        exact fun hnone => lookup_table_eq_none_iff.mp hnone hplaced
      exact ⟨.duplicateLabel name, by rw [Session.step, Session.place, Labels.define_of_some hsome]⟩
    · have hlt : maxOffset < s.code.size := by
        rw [hsize]
        exact ha.resolve_left hplaced
      rw [lookup_table_eq_none_iff.mpr hplaced] at hoffset
      exact ⟨.offsetOverflow name s.code.size,
        by rw [Session.step, Session.place, Labels.define_of_lt hoffset hlt]⟩
  case perform.push =>
    have hencode : ∃ fault, v.encode = .error fault := by
      rcases ha with hempty | hle
      · exact ⟨_, Operand.encode_empty hempty⟩
      · exact Operand.encode_of_le hle
    obtain ⟨fault, hfault⟩ := hencode
    exact ⟨fault, by rw [Session.step, Session.perform, hfault]⟩
  case perform.dup =>
    have hn : 15 < n.toNat := ha
    have hlt : ¬ n.toNat < stackWindow := by rw [stackWindow]; omega
    exact ⟨.dupOutOfRange n.toNat, by rw [Session.step, Session.perform, if_neg hlt]⟩
  case perform.swap =>
    have hn : n.toNat < 1 ∨ 16 < n.toNat := ha
    have hrange : ¬ (1 ≤ n.toNat ∧ n.toNat ≤ stackWindow) := by rw [stackWindow]; omega
    exact ⟨.swapOutOfRange n.toNat, by rw [Session.step, Session.perform, if_neg hrange]⟩
  all_goals exact ha.elim

/-! ### Runs -/

/-- **A run from a linked session ends in one**, linked to the steps that were taken besides. -/
theorem attempt (h : Linked as s) (bs : List Step) :
    Linked (as ++ s.taken bs) (s.attempt bs).1 := by
  induction bs generalizing as s with
  | nil => simpa [taken, journal, Session.attempt] using h
  | cons b bs ih =>
    by_cases hb : Refused as b
    · obtain ⟨fault, hstep⟩ := h.step_refused hb
      have hfault : (s.step b).2 = some fault := by rw [hstep]
      rw [attempt_cons, taken_cons_of_refused s hfault, hstep]
      exact ih h
    · obtain ⟨hnone, hlinked⟩ := h.step hb
      rw [attempt_cons, taken_cons_of_taken s hnone]
      simpa using ih hlinked

/-- Steps are recorded where two passes lay them out. -/
theorem journal (h : Linked as s) (bs : List Step) :
    s.journal bs = layout (extent as) (s.taken bs) := by
  induction bs generalizing as s with
  | nil => rfl
  | cons b bs ih =>
    by_cases hb : Refused as b
    · obtain ⟨fault, hstep⟩ := h.step_refused hb
      have hfault : (s.step b).2 = some fault := by rw [hstep]
      rw [journal_cons_of_refused s hfault, taken_cons_of_refused s hfault, hstep]
      exact ih h
    · obtain ⟨hnone, hlinked⟩ := h.step hb
      have hrest := ih hlinked
      rw [extent_append, extent_cons, extent_nil, Nat.add_zero] at hrest
      rw [journal_cons_of_taken s hnone, taken_cons_of_taken s hnone, layout, h.size, hrest]

end Linked

/-- Every session is linked to the steps that it took. -/
theorem linked_attempt (as : List Step) : Linked (taken {} as) (attempt {} as).1 := by
  simpa using linked_nil.attempt as

/-- A step is refused by a run exactly if it is refused behind the steps taken before it. -/
theorem getElem?_attempt_eq_fault_iff (as : List Step) (i : Fin as.length) :
    (∃ fault, (attempt {} as).2[i.val]? = some (some fault)) ↔
      Refused (taken {} (as.take i)) as[i] := by
  have hlinked := linked_attempt (as.take i)
  have hsaid := getElem?_attempt {} i.isLt
  constructor
  · rintro ⟨fault, hfault⟩
    by_contra hrefused
    have hnone := (hlinked.step hrefused).1
    rw [hsaid, Option.some.injEq] at hfault
    rw [Fin.getElem_fin, hfault] at hnone
    cases hnone
  · intro hrefused
    obtain ⟨fault, hstep⟩ := hlinked.step_refused hrefused
    rw [Fin.getElem_fin] at hstep
    exact ⟨fault, by rw [hsaid, hstep]⟩

/-- **Patching in one pass is assembling in two.** A run over any steps refuses exactly those that
cannot be taken behind the ones taken before them. Of the steps taken, its code is what the second
pass writes with the complete table of the first, its labels are that table in the order of placing,
and the names that still wait are those that are referenced and never placed. -/
theorem attempt_eq_twoPass (as : List Step) :
    (attempt {} as).2.length = as.length ∧
      (∀ i : Fin as.length, (∃ fault, (attempt {} as).2[i.val]? = some (some fault)) ↔
        Refused (taken {} (as.take i)) as[i]) ∧
      taken {} as = ((as.zip (attempt {} as).2).filter fun said => said.2.isNone).map Prod.fst ∧
      (attempt {} as).1.code.toList = TwoPass.code (taken {} as) ∧
      (attempt {} as).1.labels.defined.toList = table (taken {} as) ∧
      (attempt {} as).1.labels.unresolved = missing (taken {} as) := by
  have hlinked := linked_attempt as
  refine ⟨length_attempt {} as, getElem?_attempt_eq_fault_iff as, taken_eq_filter {} as, ?_, ?_, ?_⟩
  · exact hlinked.code
  · exact hlinked.defined
  · exact hlinked.unresolved

/-- A label that is placed again is refused, and the jumps around it go to the first place. -/
example :
    let as : List Step := [.perform (.jump (some "a")), .place "a", .place "a",
      .perform (.jumpi (some "a")), .perform (.jump (some "b"))]
    (attempt {} as).2 = [none, none, some (.duplicateLabel "a"), none, none] ∧
      TwoPass.code (taken {} as) =
        [0x62, 0, 0, 5, 0x56, 0x5B, 0x62, 0, 0, 5, 0x57, 0x62, 0, 0, 0, 0x56] ∧
      table (taken {} as) = [("a", 5)] ∧ missing (taken {} as) = ["b"] := by
  decide

end Session

end BytecodeAssembler
