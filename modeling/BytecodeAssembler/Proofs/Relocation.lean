import BytecodeAssembler.Proofs.Destinations
import BytecodeAssembler.Proofs.Ledger

/-!
# Programs one behind another

If a program `q` places every label it refers to, and another program `p` knows none of them
(`Separate p q`), then `q` can be assembled behind `p` in one session. It takes the place that two
passes give it, `extent p` bytes further on, and so do its labels (`table_append_map`); what `p`
refers to is found or missed as before. The code of `q` then only differs from what it is on its own
in the operands of its named jumps, which are larger by the length of `p` (`Relocates`).

A session fills in operands as labels are placed, and behind `p` it does so at other sites. On its
own or behind `p`, what it ends with is what two passes over the steps give (`Linked`), so only the
two passes are compared (`run_append_relocates`).
-/

namespace BytecodeAssembler

open TwoPass

/-! ### Relocated code -/

/-- `moved` is `code` with `delta` added to the numbers in the three bytes at some sites. -/
structure Relocates (delta : Nat) (sites : List Nat) (code moved : List UInt8) : Prop where
  length : moved.length = code.length
  within : ∀ site ∈ sites, site + labelWidth ≤ code.length
  operand : ∀ site ∈ sites, Bytes.valueOf ((moved.drop site).take labelWidth) =
    delta + Bytes.valueOf ((code.drop site).take labelWidth)
  kept : ∀ i, (∀ site ∈ sites, i < site ∨ site + labelWidth ≤ i) → moved[i]? = code[i]?

theorem take_drop_append {code : List UInt8} {site n : Nat} (h : site + n ≤ code.length)
    (more : List UInt8) : ((code ++ more).drop site).take n = (code.drop site).take n := by
  rw [List.drop_append_of_le_length (by omega), List.take_append_of_le_length]
  rw [List.length_drop]
  omega

namespace Relocates

variable {delta : Nat} {sites sites' : List Nat} {code code' moved moved' : List UInt8}

theorem refl (delta : Nat) (code : List UInt8) : Relocates delta [] code code :=
  ⟨rfl, by simp, by simp, fun _ _ => rfl⟩

/-- Code that is relocated piece by piece is relocated. -/
theorem append (h : Relocates delta sites code moved) (h' : Relocates delta sites' code' moved') :
    Relocates delta (sites ++ sites'.map (code.length + ·)) (code ++ code') (moved ++ moved') where
  length := by rw [List.length_append, List.length_append, h.length, h'.length]
  within := by
    intro site hsite
    rw [List.length_append]
    rcases List.mem_append.mp hsite with hfront | hback
    · have := h.within site hfront
      omega
    · obtain ⟨back, hmem, rfl⟩ := List.mem_map.mp hback
      have := h'.within back hmem
      omega
  operand := by
    intro site hsite
    rcases List.mem_append.mp hsite with hfront | hback
    · have hwithin := h.within site hfront
      rw [take_drop_append (by rw [h.length]; exact hwithin), take_drop_append hwithin,
        h.operand site hfront]
    · obtain ⟨back, hmem, rfl⟩ := List.mem_map.mp hback
      have hmoved : (moved ++ moved').drop (code.length + back) = moved'.drop back := by
        rw [← h.length, List.drop_length_add_append]
      rw [hmoved, List.drop_length_add_append, h'.operand back hmem]
  kept := by
    intro i houtside
    rcases Nat.lt_or_ge i code.length with hi | hi
    · rw [List.getElem?_append_left (by rw [h.length]; exact hi), List.getElem?_append_left hi]
      exact h.kept i fun site hsite => houtside site (List.mem_append_left _ hsite)
    · rw [List.getElem?_append_right (by rw [h.length]; exact hi), List.getElem?_append_right hi,
        h.length]
      refine h'.kept _ fun site hsite => ?_
      have := houtside (code.length + site)
        (List.mem_append_right _ (List.mem_map_of_mem hsite))
      omega

end Relocates

namespace TwoPass

/-! ### Two passes over steps further on -/

theorem layout_add (delta offset : Nat) (as : List Step) :
    layout (delta + offset) as = (layout offset as).map (Prod.map (delta + ·) id) := by
  induction as generalizing offset with
  | nil => rfl
  | cons a as ih =>
    rw [layout, layout, Nat.add_assoc, ih]
    rfl

theorem references_add (delta offset : Nat) (as : List Step) :
    references (delta + offset) as = (references offset as).map (Prod.map id (delta + ·)) := by
  rw [references, layout_add, List.filterMap_map, references, List.map_filterMap]
  refine List.filterMap_congr fun entry _ => ?_
  cases h : entry.2.reference? <;> simp [h, Nat.add_assoc]

theorem table_append_map (as bs : List Step) :
    table (as ++ bs) = table as ++ (table bs).map (Prod.map id (extent as + ·)) := by
  have hlayout := layout_add (extent as) 0 bs
  rw [Nat.add_zero] at hlayout
  rw [table_append, hlayout, List.filterMap_map, table, table, List.map_filterMap]
  congr 1
  refine List.filterMap_congr fun entry _ => ?_
  cases h : entry.2.label? <;> simp [h]

theorem lookup_map (f : Nat → Nat) (labels : List (String × Nat)) (name : String) :
    (labels.map (Prod.map id f)).lookup name = (labels.lookup name).map f := by
  induction labels with
  | nil => rfl
  | cons entry labels ih =>
    obtain ⟨label, offset⟩ := entry
    by_cases h : name = label
    · simp [h]
    · have hne : (name == label) = false := by simpa using h
      simp [List.lookup_cons, hne, ih]

/-- A step is relocated if what it refers to is. -/
theorem relocates_bytesOf {delta : Nat} {labels labels' : List (String × Nat)} {a : Step}
    (h : ∀ name, a.reference? = some name → Bytes.valueOf (operand labels' name) =
      delta + Bytes.valueOf (operand labels name)) :
    Relocates delta ((references 0 [a]).map Prod.snd) (bytesOf labels a) (bytesOf labels' a) := by
  rw [references_cons]
  cases ha : a.reference? with
  | none =>
    have hsame : bytesOf labels' a = bytesOf labels a :=
      bytesOf_congr fun name hname => by simp [ha] at hname
    rw [hsame]
    exact .refl delta _
  | some name =>
    obtain ⟨o, -, hbytes⟩ := bytesOf_of_reference ha
    obtain ⟨x, y, z, hold⟩ := List.length_eq_three.mp (length_operand labels name)
    obtain ⟨x', y', z', hnew⟩ := List.length_eq_three.mp (length_operand labels' name)
    have hvalue := h name ha
    rw [hold, hnew] at hvalue
    rw [hbytes, hbytes, hold, hnew]
    refine ⟨rfl, ?_, ?_, ?_⟩
    · simp [references, layout, labelWidth]
    · simpa [references, layout, labelWidth] using hvalue
    · intro i houtside
      have hi : i < 1 ∨ 4 ≤ i := by simpa [references, layout, labelWidth] using houtside
      rcases hi with hi | hi
      · obtain rfl : i = 0 := by omega
        rfl
      · obtain ⟨k, rfl⟩ := Nat.exists_eq_add_of_le' hi
        rfl

/-- Steps are relocated if what each of them refers to is. -/
theorem relocates_flatMap_bytesOf {delta : Nat} {labels labels' : List (String × Nat)}
    {as : List Step} (h : ∀ a ∈ as, ∀ name, a.reference? = some name →
      Bytes.valueOf (operand labels' name) = delta + Bytes.valueOf (operand labels name)) :
    Relocates delta ((references 0 as).map Prod.snd) (as.flatMap (bytesOf labels))
      (as.flatMap (bytesOf labels')) := by
  induction as with
  | nil => exact .refl delta []
  | cons a as ih =>
    obtain ⟨ha, has⟩ := List.forall_mem_cons.mp h
    have hsites : (references 0 (a :: as)).map Prod.snd = (references 0 [a]).map Prod.snd ++
        ((references 0 as).map Prod.snd).map ((bytesOf labels a).length + ·) := by
      have hrest := references_add a.width 0 as
      rw [Nat.add_zero] at hrest
      rw [← List.singleton_append, references_append, extent_cons, extent_nil, Nat.add_zero,
        Nat.zero_add, hrest, length_bytesOf, List.map_append, List.map_map, List.map_map]
      rfl
    rw [List.flatMap_cons, List.flatMap_cons, hsites]
    exact (relocates_bytesOf ha).append (ih has)

/-! ### Steps that need nothing of each other -/

/-- The steps `q` refer only to labels that they place, and the steps `p` do not know these. -/
structure Separate (p q : List Step) : Prop where
  closed : ∀ a ∈ q, ∀ name, a.reference? = some name → .place name ∈ q
  unplaced : ∀ name, .place name ∈ q → .place name ∉ p
  unreferenced : ∀ name, .place name ∈ q → ∀ a ∈ p, a.reference? ≠ some name

namespace Separate

variable {p q : List Step} (h : Separate p q)
include h

theorem lookup_of_placed {name : String} (hname : .place name ∈ q) :
    (table (p ++ q)).lookup name = ((table q).lookup name).map (extent p + ·) := by
  rw [table_append_map, List.lookup_append, lookup_map,
    lookup_table_eq_none_iff.mpr (h.unplaced name hname)]
  rfl

theorem lookup_of_reference {a : Step} (ha : a ∈ p) {name : String}
    (hname : a.reference? = some name) :
    (table (p ++ q)).lookup name = (table p).lookup name := by
  have hq : .place name ∉ q := fun hplaced => h.unreferenced name hplaced a ha hname
  rw [table_append_map, List.lookup_append, lookup_map, lookup_table_eq_none_iff.mpr hq]
  simp

theorem code_append :
    code (p ++ q) = code p ++ q.flatMap (bytesOf (table (p ++ q))) := by
  rw [code, List.flatMap_append, code]
  congr 1
  exact List.flatMap_congr fun a ha =>
    bytesOf_congr fun name hname => h.lookup_of_reference ha hname

/-- Only what `p` waits for still waits. -/
theorem waiting_append : waiting (p ++ q) = waiting p := by
  have hback : (references (extent p) q).filter
      (fun entry => ((table (p ++ q)).lookup entry.1).isNone) = [] := by
    refine List.filter_eq_nil_iff.mpr ?_
    rintro ⟨name, site⟩ hmem
    obtain ⟨pc, a, hlayout, hname, -⟩ := mem_references.mp hmem
    obtain ⟨before, after, heq, -⟩ := mem_layout.mp hlayout
    have hplaced := h.closed a (heq ▸ by simp) name hname
    have hsome : (table q).lookup name ≠ none := fun hnone =>
      lookup_table_eq_none_iff.mp hnone hplaced
    simpa [h.lookup_of_placed hplaced] using hsome
  rw [waiting, references_append, Nat.zero_add, List.filter_append, hback, List.append_nil, waiting]
  refine List.filter_congr ?_
  rintro ⟨name, site⟩ hmem
  obtain ⟨pc, a, hlayout, hname, -⟩ := mem_references.mp hmem
  obtain ⟨before, after, heq, -⟩ := mem_layout.mp hlayout
  rw [h.lookup_of_reference (heq ▸ by simp) hname]

theorem not_refused (hq : Lawful q)
    (hfits : ∀ entry ∈ table q, extent p + entry.2 ≤ maxOffset) {front after : List Step} {a : Step}
    (heq : q = front ++ a :: after) : ¬ Refused (p ++ front) a := by
  have hfront := hq front a after heq
  cases a with
  | place name =>
    -- the label is new to both, and its offset is one of those that fit
    obtain ⟨hnew, -⟩ := not_or.mp hfront
    have hplaced : .place name ∈ q := by simp [heq]
    have hentry : (name, 0 + extent front) ∈ table q :=
      mem_table.mpr (mem_layout.mpr ⟨front, after, heq, rfl⟩)
    have hle := hfits _ hentry
    refine not_or.mpr ⟨?_, ?_⟩
    · simp [h.unplaced name hplaced, hnew]
    · rw [extent_append]
      simp only [maxOffset] at hle
      omega
  | perform o => cases o <;> exact hfront

/-- Steps that can be taken on their own can be taken behind others, if their labels still fit. -/
theorem lawful_append (hp : Lawful p) (hq : Lawful q)
    (hfits : ∀ entry ∈ table q, extent p + entry.2 ≤ maxOffset) : Lawful (p ++ q) := by
  intro before a after heq
  rcases List.append_eq_append_iff.mp heq with ⟨front, rfl, hback⟩ | ⟨back, hfront, hafter⟩
  · exact h.not_refused hq hfits hback
  · cases back with
    | nil =>
      rw [List.append_nil] at hfront
      rw [← hfront, ← List.append_nil p]
      exact h.not_refused hq hfits hafter.symm
    | cons b back =>
      obtain ⟨rfl, -⟩ := List.cons.inj hafter
      exact hp before a back hfront

theorem relocates (hq : Lawful q) (hfits : ∀ entry ∈ table q, extent p + entry.2 ≤ maxOffset) :
    Relocates (extent p) ((references 0 q).map Prod.snd) (code q)
      (q.flatMap (bytesOf (table (p ++ q)))) := by
  refine relocates_flatMap_bytesOf fun a ha name hname => ?_
  have hplaced := h.closed a ha name hname
  obtain ⟨offset, hlookup⟩ := Option.ne_none_iff_exists'.mp fun hnone =>
    lookup_table_eq_none_iff.mp hnone hplaced
  have hmem := mem_table_of_lookup hlookup
  have hmoved : (table (p ++ q)).lookup name = some (extent p + offset) := by
    rw [h.lookup_of_placed hplaced, hlookup]
    rfl
  rw [valueOf_operand hmoved (hfits _ hmem), valueOf_operand hlookup (hq.le_of_mem_table hmem)]

end Separate

end TwoPass

namespace Session

/-! ### Runs that are not refused -/

theorem run_cons_of_taken {s : Session} {a : Step} (h : (s.step a).2 = none) (as : List Step) :
    s.run (a :: as) = (s.step a).1.run as := by
  rw [run]
  split
  · next t ht => rw [ht]
  · next t fault ht => simp [ht] at h

/-- Of steps that a run takes to the end, the attempt skips none and ends alike. -/
theorem attempt_of_run {s t : Session} {as : List Step} (h : s.run as = (t, none)) :
    (s.attempt as).1 = t ∧ s.taken as = as := by
  induction as generalizing s with
  | nil =>
    cases h
    exact ⟨rfl, rfl⟩
  | cons a as ih =>
    cases ha : (s.step a).2 with
    | none =>
      rw [run_cons_of_taken ha] at h
      obtain ⟨ht, htaken⟩ := ih h
      exact ⟨ht, by rw [taken_cons_of_taken s ha, htaken]⟩
    | some fault =>
      rw [run] at h
      split at h
      · next t' ht' => simp [ht'] at ha
      · cases h

/-- The sites where the named jumps that a session takes hold their targets. -/
def operandSites (s : Session) (as : List Step) : List Nat :=
  (s.journal as).filterMap fun (pc, a) => a.reference?.map fun _ => pc + 1

namespace Linked

variable {as bs : List Step} {s t : Session}

theorem run (h : Linked as s) (hrun : s.run bs = (t, none)) : Linked (as ++ bs) t := by
  obtain ⟨rfl, htaken⟩ := attempt_of_run hrun
  have hlinked := h.attempt bs
  rwa [htaken] at hlinked

/-- Steps that can be taken in turn are taken by a run. -/
theorem exists_run (h : Linked as s) (hlawful : Lawful (as ++ bs)) : ∃ t, s.run bs = (t, none) := by
  induction bs generalizing as s with
  | nil => exact ⟨s, rfl⟩
  | cons b bs ih =>
    obtain ⟨hnone, hlinked⟩ := h.step (hlawful as b bs rfl)
    rw [run_cons_of_taken hnone]
    exact ih hlinked (by simpa using hlawful)

theorem operandSites (h : Linked as s) (hrun : s.run bs = (t, none)) :
    s.operandSites bs = (references (extent as) bs).map Prod.snd := by
  rw [Session.operandSites, h.journal, (attempt_of_run hrun).2, references, List.map_filterMap]
  refine List.filterMap_congr ?_
  rintro ⟨pc, a⟩ -
  cases ha : a.reference? <;> simp [ha]

end Linked

/-- **Programs are put one behind another by relocation.** If two programs are taken on their own,
and the second needs nothing of the first, and its labels still fit behind the first, then a session
takes both:

* its code is that of the first, and behind it that of the second with the length of the first added
  to the operand of every named jump;
* its labels are those of the first, and behind them those of the second, moved by the length of the
  first;
* what waits in it is what waits in the first. -/
theorem run_append_relocates {p q : List Step} {s t : Session} (hp : run {} p = (s, none))
    (hq : run {} q = (t, none)) (hseparate : Separate p q)
    (hfits : ∀ entry ∈ t.labels.defined, s.size + entry.2 ≤ maxOffset) :
    ∃ u moved, run {} (p ++ q) = (u, none) ∧ u.code.toList = s.code.toList ++ moved ∧
      Relocates s.size (operandSites {} q) t.code.toList moved ∧
      u.labels.defined.toList =
        s.labels.defined.toList ++ t.labels.defined.toList.map (Prod.map id (s.size + ·)) ∧
      u.labels.pending = s.labels.pending ∧ u.labels.unresolved = s.labels.unresolved := by
  have hlinked := linked_nil.run hp
  have hlinked' := linked_nil.run hq
  rw [List.nil_append] at hlinked hlinked'
  have htable : ∀ entry ∈ table q, extent p + entry.2 ≤ maxOffset := by
    intro entry hentry
    rw [← hlinked'.defined, Array.mem_toList_iff] at hentry
    rw [← hlinked.size]
    exact hfits entry hentry
  have hlawful : Lawful ([] ++ (p ++ q)) :=
    hseparate.lawful_append hlinked.lawful hlinked'.lawful htable
  obtain ⟨u, hrun⟩ := linked_nil.exists_run hlawful
  have hboth := linked_nil.run hrun
  rw [List.nil_append] at hboth
  have hpending : u.labels.pending = s.labels.pending := by
    rw [← Array.toList_inj, hboth.pending, hlinked.pending, hseparate.waiting_append]
  refine ⟨u, q.flatMap (bytesOf (table (p ++ q))), hrun, ?_, ?_, ?_, hpending, ?_⟩
  · rw [hboth.code, hlinked.code, hseparate.code_append]
  · rw [hlinked.size, linked_nil.operandSites hq, hlinked'.code]
    exact hseparate.relocates hlinked'.lawful htable
  · rw [hboth.defined, hlinked.defined, hlinked'.defined, hlinked.size, table_append_map]
  · rw [Labels.unresolved, hpending, ← Labels.unresolved]

/-- Behind a program that waits for a label, a loop with a jump out of it. -/
theorem run_append_relocates_loop :
    let p : List Step :=
      [.perform (.jump (some "far")), .place "top", .perform (.jump (some "top"))]
    let q : List Step := [.place "loop", .perform (.jumpi (some "end")),
      .perform (.jump (some "loop")), .place "end"]
    Separate p q ∧ ∃ u moved, run {} (p ++ q) = (u, none) ∧
      u.code.toList = [0x62, 0, 0, 0, 0x56, 0x5B, 0x62, 0, 0, 5, 0x56] ++ moved ∧
      Relocates 11 [2, 7]
        [0x5B, 0x62, 0, 0, 11, 0x57, 0x62, 0, 0, 0, 0x56, 0x5B] moved ∧
      u.labels.defined.toList = [("top", 5), ("loop", 11), ("end", 22)] ∧
      u.labels.unresolved = ["far"] := by
  intro p q
  have hp : run {} p = ((run {} p).1, none) := by decide
  have hq : run {} q = ((run {} q).1, none) := by decide
  have hseparate : Separate p q := by
    refine ⟨by decide, ?_, ?_⟩
    · intro name hname
      obtain rfl | rfl : name = "loop" ∨ name = "end" := by simpa [q] using hname
      all_goals decide
    · intro name hname
      obtain rfl | rfl : name = "loop" ∨ name = "end" := by simpa [q] using hname
      all_goals decide
  obtain ⟨u, moved, hrun, hcode, hmoved, hdefined, -, hunresolved⟩ :=
    run_append_relocates hp hq hseparate (by decide)
  exact ⟨hseparate, u, moved, hrun, hcode, hmoved, hdefined, hunresolved⟩

end Session

end BytecodeAssembler
