import BytecodeAssembler.Proofs.Ledger
import BytecodeAssembler.Statement

/-!
# What a step leaves as it was

A step that is refused changes nothing, and a step that is taken appends its bytes and changes only
what it says (`Extends s a t`):

* the bytes of `s` stay as they are, but for the operands that wait for a label that `a` places;
* these operands hold the label's offset;
* the label comes last in the table, its sites are gone, and a reference to a label that is not
  placed leaves a site.

So a session is that of the steps it took (`attempt_taken`), and the labels and sites of other names
are not touched (`Extends.offset?_of_ne`, `Extends.sites_of_ne`).
-/

namespace BytecodeAssembler

open TwoPass

namespace Session

/-! ### Bytes that are overwritten -/

theorem size_overwrite (code : Array UInt8) (site : Nat) (bytes : List UInt8) :
    (overwrite code site bytes).size = code.size := by
  induction bytes generalizing code site with
  | nil => rfl
  | cons b bytes ih => rw [overwrite, ih, Array.size_setIfInBounds]

theorem getElem?_overwrite_of_lt {code : Array UInt8} {site : Nat} {bytes : List UInt8}
    (hle : site + bytes.length ≤ code.size) {k : Nat} (hk : k < bytes.length) :
    (overwrite code site bytes)[site + k]? = bytes[k]? := by
  have hcode : code.toList = code.toList.take site ++ (code.toList.drop site).take bytes.length ++
      code.toList.drop (site + bytes.length) := by
    rw [List.append_assoc, ← List.drop_drop, List.take_append_drop, List.take_append_drop]
  have hsize : code.toList.length = code.size := Array.length_toList
  have hlen : (code.toList.take site).length = site := by
    rw [List.length_take, hsize]
    omega
  have hold : ((code.toList.drop site).take bytes.length).length = bytes.length := by
    rw [List.length_take, List.length_drop, hsize]
    omega
  have hover := toList_overwrite _ _ _ hcode hold
  rw [hlen] at hover
  rw [← Array.getElem?_toList, hover, List.append_assoc, List.getElem?_append_right (by omega),
    hlen, Nat.add_sub_cancel_left, List.getElem?_append_left hk]

theorem getElem?_overwrite_of_outside {site i : Nat} {bytes : List UInt8}
    (h : i < site ∨ site + bytes.length ≤ i) (code : Array UInt8) :
    (overwrite code site bytes)[i]? = code[i]? := by
  induction bytes generalizing code site with
  | nil => rfl
  | cons b bytes ih =>
    rw [List.length_cons] at h
    have hne : site ≠ i := by omega
    have hrest : i < site + 1 ∨ site + 1 + bytes.length ≤ i := by omega
    rw [overwrite, ih hrest, Array.getElem?_setIfInBounds_ne hne]

theorem size_patch (code : Array UInt8) (target : List UInt8) (sites : List Nat) :
    (patch code target sites).size = code.size := by
  induction sites generalizing code with
  | nil => rfl
  | cons site sites ih => rw [patch, List.foldl_cons, ← patch, ih, size_overwrite]

/-- Bytes in none of the sites stay as they are. -/
theorem getElem?_patch_of_outside {target : List UInt8} {sites : List Nat} {i : Nat}
    (h : ∀ site ∈ sites, i < site ∨ site + target.length ≤ i) (code : Array UInt8) :
    (patch code target sites)[i]? = code[i]? := by
  induction sites generalizing code with
  | nil => rfl
  | cons site sites ih =>
    have hrest := ih fun other hother => h other (List.mem_cons_of_mem _ hother)
    rw [patch, List.foldl_cons, ← patch, hrest,
      getElem?_overwrite_of_outside (h site List.mem_cons_self)]

/-- A site holds the target after sites that do not overlap were written. -/
theorem getElem?_patch_of_mem {target : List UInt8} {sites : List Nat} {site k : Nat}
    (hapart : sites.Pairwise fun x y => x + target.length ≤ y) (hsite : site ∈ sites)
    (hk : k < target.length) {code : Array UInt8}
    (hle : ∀ site ∈ sites, site + target.length ≤ code.size) :
    (patch code target sites)[site + k]? = target[k]? := by
  induction sites generalizing code with
  | nil => cases hsite
  | cons first sites ih =>
    obtain ⟨hfirst, hrest⟩ := List.pairwise_cons.mp hapart
    rw [patch, List.foldl_cons, ← patch]
    rcases List.mem_cons.mp hsite with rfl | hsite
    · -- the sites written later lie behind this one
      have houtside : ∀ other ∈ sites, site + k < other ∨ other + target.length ≤ site + k := by
        intro other hother
        have := hfirst other hother
        omega
      rw [getElem?_patch_of_outside houtside,
        getElem?_overwrite_of_lt (hle site List.mem_cons_self) hk]
    · refine ih hrest hsite ?_
      intro other hother
      rw [size_overwrite]
      exact hle other (List.mem_cons_of_mem _ hother)

section Push

variable {code : Array UInt8} {b : UInt8} {target : List UInt8} {sites : List Nat}

theorem getElem?_patch_push {i : Nat} (hi : i < code.size)
    (h : ∀ site ∈ sites, i < site ∨ site + target.length ≤ i) :
    (patch (code.push b) target sites)[i]? = code[i]? := by
  rw [getElem?_patch_of_outside h, Array.getElem?_push_lt hi]
  exact (Array.getElem?_eq_getElem hi).symm

/-- A byte behind all sites stays the last one. -/
theorem drop_patch_push (hle : ∀ site ∈ sites, site + target.length ≤ code.size) :
    (patch (code.push b) target sites).toList.drop code.size = [b] := by
  have hsize := size_patch (code.push b) target sites
  have hlast : (patch (code.push b) target sites)[code.size]? = some b := by
    rw [getElem?_patch_of_outside fun site hsite => Or.inr (hle site hsite)]
    exact Array.getElem?_push_size
  rw [Array.size_push] at hsize
  rw [← Array.getElem?_toList] at hlast
  obtain ⟨hlt, hbyte⟩ := List.getElem?_eq_some_iff.mp hlast
  rw [List.drop_eq_getElem_cons hlt, hbyte, List.drop_eq_nil_of_le]
  rw [Array.length_toList, hsize]

end Push

/-! ### Steps that are refused -/

/-- **A step that is refused leaves the session as it was.** -/
theorem step_eq_self {s : Session} {a : Step} {fault : Fault} (h : (s.step a).2 = some fault) :
    (s.step a).1 = s := by
  rcases a with name | (o | v | n | n | target | target)
  case place =>
    rw [step, place] at h ⊢
    split
    · rfl
    · next hdefine => simp [hdefine] at h
  case perform.push =>
    rw [step, perform] at h ⊢
    split
    · next hencode => simp [hencode] at h
    · rfl
  case perform.dup =>
    rw [step, perform] at h ⊢
    split
    · next hlt => simp [hlt] at h
    · rfl
  case perform.swap =>
    rw [step, perform] at h ⊢
    split
    · next hrange => simp [hrange] at h
    · rfl
  all_goals cases h

/-- **A session is that of the steps it took**, as if the refused ones had never been there. -/
theorem attempt_taken (s : Session) (as : List Step) :
    s.attempt (s.taken as) = ((s.attempt as).1, List.replicate (s.taken as).length none) := by
  induction as generalizing s with
  | nil => rfl
  | cons a as ih =>
    cases h : (s.step a).2 with
    | none =>
      rw [taken_cons_of_taken s h, attempt_cons, attempt_cons, ih, h]
      rfl
    | some fault =>
      rw [taken_cons_of_refused s h, attempt_cons, step_eq_self h, ih]

/-! ### Steps that are taken -/

/-- The sites that a step writes: those that wait for the label it places. -/
def written (s : Session) : Step → List Nat
  | .place name => s.labels.sites name
  | .perform _ => []

/-- The site that a step leaves, if it refers to a label that is not placed. -/
def deferred (s : Session) (a : Step) : List (String × Nat) :=
  ((a.reference?.filter fun name => (s.labels.offset? name).isNone).map fun name =>
    (name, s.size + 1)).toList

/-- **The frame of a step**: `t` is `s` with the bytes of `a` at its end, and else differs from `s`
only in what `a` says. -/
structure Extends (s : Session) (a : Step) (t : Session) : Prop where
  appended : t.code.toList.drop s.size = bytesOf s.labels.defined.toList a
  kept : ∀ i < s.size, (∀ site ∈ s.written a, i < site ∨ site + labelWidth ≤ i) →
    t.code[i]? = s.code[i]?
  within : ∀ site ∈ s.written a, site + labelWidth ≤ s.size
  patched : ∀ site ∈ s.written a, ∀ k < labelWidth,
    t.code[site + k]? = (Bytes.bigEndian 3 s.size)[k]?
  defined : t.labels.defined.toList =
    s.labels.defined.toList ++ (a.label?.map fun name => (name, s.size)).toList
  pending : t.labels.pending.toList =
    (s.labels.pending.toList.filter fun entry => a.label? ≠ some entry.1) ++ s.deferred a

namespace Extends

variable {s t : Session} {a : Step}

/-- A step does not touch the definition of a label that it does not place. -/
theorem offset?_of_ne (h : Extends s a t) {name : String} (hname : a.label? ≠ some name) :
    t.labels.offset? name = s.labels.offset? name := by
  rw [Labels.offset?_eq_lookup, Labels.offset?_eq_lookup, h.defined]
  cases hlabel : a.label? with
  | none => simp
  | some label =>
    have hne : name ≠ label := by
      rintro rfl
      exact hname hlabel
    exact lookup_append_of_ne s.size hne

/-- A step does not touch the sites of a name that it neither places nor refers to. -/
theorem sites_of_ne (h : Extends s a t) {name : String} (hlabel : a.label? ≠ some name)
    (hreference : a.reference? ≠ some name) : t.labels.sites name = s.labels.sites name := by
  have hdeferred : (s.deferred a).filter (fun entry => entry.1 == name) = [] := by
    refine List.filter_eq_nil_iff.mpr ?_
    rintro ⟨label, site⟩ hmem hname
    obtain rfl : label = name := by simpa using hname
    simp [deferred] at hmem
    exact hreference hmem.1.1
  rw [Labels.sites, Labels.sites, h.pending, List.filter_append, hdeferred, List.append_nil,
    List.filter_filter]
  congr 1
  refine List.filter_congr fun entry _ => ?_
  by_cases hentry : entry.1 = name
  · simp [hentry, hlabel]
  · simp [hentry]

end Extends

namespace Linked

variable {as : List Step} {s : Session}

theorem extends_perform (h : Linked as s) {o : Operation} (ha : ¬ Refused as (.perform o)) :
    Extends s (.perform o) (s.step (.perform o)).1 := by
  have hlinked := (h.step ha).2
  have hcode : (s.step (.perform o)).1.code.toList =
      s.code.toList ++ bytesOf s.labels.defined.toList (.perform o) := by
    rw [hlinked.code, code_perform, h.code, h.defined]
  refine ⟨?_, ?_, ?_, ?_, ?_, ?_⟩
  · rw [hcode]
    exact List.drop_left' Array.length_toList
  · intro i hi _
    have hlt : i < s.code.toList.length := by rwa [Array.length_toList]
    rw [← Array.getElem?_toList, hcode, List.getElem?_append_left hlt, Array.getElem?_toList]
  · intro site hsite
    cases hsite
  · intro site hsite
    cases hsite
  · rw [hlinked.defined, table_perform, h.defined]
    exact (List.append_nil _).symm
  · have hdeferred : (references (extent as) [.perform o]).filter
        (fun entry => ((table as).lookup entry.1).isNone) = s.deferred (.perform o) := by
      rw [references_cons, deferred, h.size]
      cases hreference : (Step.perform o).reference? with
      | none => rfl
      | some name =>
        cases hname : (table as).lookup name with
        | none => simp [h.offset?, hname, references, layout, Option.filter]
        | some offset => simp [h.offset?, hname, references, layout, Option.filter]
    have hall : s.labels.pending.toList.filter
        (fun entry => (Step.perform o).label? ≠ some entry.1) = s.labels.pending.toList :=
      List.filter_eq_self.mpr fun _ _ => rfl
    rw [hlinked.pending, waiting_perform, hdeferred, hall, h.pending]

theorem extends_place (h : Linked as s) {name : String} (ha : ¬ Refused as (.place name)) :
    Extends s (.place name) (s.step (.place name)).1 := by
  have hwidth : (encodeOffset s.code.size).length = labelWidth := Bytes.length_bigEndian 3 _
  have hwithin : ∀ site ∈ s.labels.sites name, site + labelWidth ≤ s.size := by
    intro site hsite
    have hlt := (h.waits (Labels.mem_sites.mp hsite)).lt
    rw [Array.length_toList] at hlt
    exact Nat.le_of_lt hlt
  rw [h.step_place ha]
  refine ⟨?_, ?_, hwithin, ?_, Array.toList_push, ?_⟩
  · refine drop_patch_push ?_
    rw [hwidth]
    exact hwithin
  · intro i hi houtside
    refine getElem?_patch_push hi ?_
    rw [hwidth]
    exact houtside
  · intro site hsite k hk
    rw [← hwidth] at hk
    refine getElem?_patch_of_mem ?_ hsite hk ?_
    · refine (h.sites_pairwise name).imp fun {x y} hle => ?_
      rw [hwidth, labelWidth]
      omega
    · intro other hother
      rw [hwidth, Array.size_push]
      exact Nat.le_succ_of_le (hwithin other hother)
  · have hnone : s.deferred (.place name) = [] := rfl
    rw [Array.toList_filter, hnone, List.append_nil]
    refine List.filter_congr fun entry _ => ?_
    by_cases hentry : entry.1 = name
    · simp [Step.label?, hentry]
    · simp [Step.label?, hentry, Ne.symm hentry]

end Linked

/-- A step is taken and extends the session, or is refused and leaves it. -/
theorem Linked.step_extends {as : List Step} {s : Session} (h : Linked as s) {a : Step}
    (ha : (s.step a).2 = none) : Extends s a (s.step a).1 := by
  have hnot : ¬ Refused as a := by
    intro hrefused
    obtain ⟨fault, hstep⟩ := h.step_refused hrefused
    simp [hstep] at ha
  cases a with
  | place name => exact h.extends_place hnot
  | perform o => exact h.extends_perform hnot

/-! ### Statements -/

theorem run_singleton (s : Session) (a : Step) : s.run [a] = s.step a := by
  rw [run]
  rcases s.step a with ⟨t, _ | fault⟩
  · rfl
  · rfl

/-- What is refused behind the label of a statement is its operation. -/
theorem run_operation_refused {s t : Session} {operation : Option Operation} {fault : Fault}
    (h : s.run (operation.map Step.perform).toList = (t, some fault)) :
    ∃ o, operation = some o ∧ (t.step (.perform o)).2 = some fault ∧ t = s := by
  cases operation with
  | none => cases h
  | some o =>
    have hstep : s.step (.perform o) = (t, some fault) := (run_singleton s _).symm.trans h
    have hfault : (s.step (.perform o)).2 = some fault := by rw [hstep]
    have hself := step_eq_self hfault
    rw [hstep] at hself
    obtain rfl : t = s := hself
    exact ⟨o, rfl, hfault, rfl⟩

/-- A statement that is refused leaves the session as it was, if its label is refused, and else the
session with that label placed. -/
theorem apply_refused {st : Statement} {s t : Session} {fault : Fault}
    (h : st.apply s = (t, some fault)) :
    (∃ name, st.label = some name ∧ (s.step (.place name)).2 = some fault ∧ t = s) ∨
      ∃ o, st.operation = some o ∧ (t.step (.perform o)).2 = some fault ∧
        ((st.label = none ∧ t = s) ∨
          ∃ name, st.label = some name ∧ s.step (.place name) = (t, none)) := by
  obtain ⟨_ | name, operation⟩ := st
  · obtain ⟨o, ho, hfault, rfl⟩ := run_operation_refused h
    exact Or.inr ⟨o, ho, hfault, Or.inl ⟨rfl, rfl⟩⟩
  · rcases hstep : s.step (.place name) with ⟨v, _ | refused⟩
    · have hrun : v.run (operation.map Step.perform).toList = (t, some fault) := by
        simpa [Statement.apply, Statement.steps, run, hstep] using h
      obtain ⟨o, ho, hfault, rfl⟩ := run_operation_refused hrun
      exact Or.inr ⟨o, ho, hfault, Or.inr ⟨name, rfl, hstep⟩⟩
    · have hfault : (s.step (.place name)).2 = some refused := by rw [hstep]
      have hself := step_eq_self hfault
      rw [hstep] at hself
      obtain ⟨rfl, rfl⟩ : v = t ∧ refused = fault := by
        simpa [Statement.apply, Statement.steps, run, hstep] using h
      exact Or.inl ⟨name, rfl, hfault, hself⟩

/-- **A step appends and patches what it declares, or does nothing.** In every state of a session:

* a step that is refused leaves the session as it was, so that a session is that of the steps it
  took;
* a step that is taken extends the session, and touches no definition of another label and no site
  of another name;
* a statement that is refused leaves the session as it was, or with its own label placed. -/
theorem step_extends_or_keeps (as : List Step) :
    let s := (attempt {} as).1
    (∀ a fault, (s.step a).2 = some fault → (s.step a).1 = s) ∧
      attempt {} (taken {} as) = (s, List.replicate (taken {} as).length none) ∧
      (∀ a, (s.step a).2 = none → Extends s a (s.step a).1) ∧
      (∀ a name, a.label? ≠ some name →
        (s.step a).1.labels.offset? name = s.labels.offset? name ∧
          (a.reference? ≠ some name → (s.step a).1.labels.sites name = s.labels.sites name)) ∧
      ∀ (st : Statement) (t : Session) (fault : Fault), st.apply s = (t, some fault) →
        (∃ name, st.label = some name ∧ (s.step (.place name)).2 = some fault ∧ t = s) ∨
          ∃ o, st.operation = some o ∧ (t.step (.perform o)).2 = some fault ∧
            ((st.label = none ∧ t = s) ∨
              ∃ name, st.label = some name ∧ s.step (.place name) = (t, none)) := by
  intro s
  have hlinked : Linked (taken {} as) s := linked_attempt as
  refine ⟨?_, attempt_taken {} as, ?_, ?_, ?_⟩
  · intro a fault hfault
    exact step_eq_self hfault
  · intro a ha
    exact hlinked.step_extends ha
  · intro a name hlabel
    cases ha : (s.step a).2 with
    | some fault =>
      rw [step_eq_self ha]
      exact ⟨rfl, fun _ => rfl⟩
    | none =>
      have hextends := hlinked.step_extends ha
      exact ⟨hextends.offset?_of_ne hlabel, hextends.sites_of_ne hlabel⟩
  · intro st t fault happly
    exact apply_refused happly

/-- A label that one jump waits for and another does not, a step that is refused, and a statement
that is refused behind its label. -/
theorem step_extends_or_keeps_end :
    let s := (attempt {} [.perform (.jump (some "end")), .perform (.jumpi (some "far"))]).1
    let t := (s.step (.place "end")).1
    (s.step (.perform (.swap 0))).1 = s ∧ Extends s (.place "end") t ∧
      t.code = #[0x62, 0, 0, 10, 0x56, 0x62, 0, 0, 0, 0x57, 0x5B] ∧
      t.labels.sites "far" = s.labels.sites "far" ∧
      ∃ o, (⟨some "end", some (.dup 16)⟩ : Statement).operation = some o ∧
        (t.step (.perform o)).2 = some (.dupOutOfRange 16) := by
  intro s t
  obtain ⟨hrefused, -, htaken, hother, hstatement⟩ := step_extends_or_keeps
    [.perform (.jump (some "end")), .perform (.jumpi (some "far"))]
  have hfar := (hother (.place "end") "far" (by decide)).2 (by decide)
  have happly : (⟨some "end", some (.dup 16)⟩ : Statement).apply s =
      (t, some (.dupOutOfRange 16)) := by decide
  refine ⟨hrefused _ (.swapOutOfRange 0) (by decide), htaken _ (by decide), by decide, hfar, ?_⟩
  rcases hstatement _ _ _ happly with ⟨name, hname, hfault, -⟩ | ⟨o, ho, hfault, -⟩
  · obtain rfl : "end" = name := Option.some.inj hname
    exact absurd hfault (by decide)
  · exact ⟨o, ho, hfault⟩

end Session

end BytecodeAssembler
