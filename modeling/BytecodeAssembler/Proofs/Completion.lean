import BytecodeAssembler.Proofs.Distinct
import BytecodeAssembler.Proofs.Frame
import BytecodeAssembler.Proofs.Relocation
import BytecodeAssembler.Proofs.Settling

/-!
# Placing what waits

A name that waits is not placed, so placing it is refused only if the code is too long by then. As
long as the code has room for the `JUMPDEST`s (`Room`), the names that wait can be placed in any
order:

* `missing_append_places` — placing names ends the waiting for these names and for no other;
* `Lawful.append_places` — steps that can be taken in turn can be followed by the placing of names
  that wait;
* `Linked.run_places` — so a session can place them one after another, and after all of them nothing
  waits and it can be finished (`finalize_of_resolved`), with every jump at its label
  (`Linked.lands_of_waiting`).

Past the last offset a jump target can hold no label is placed any more, and a name that waits waits
forever (`Linked.stuck`).
-/

namespace BytecodeAssembler

open TwoPass

namespace TwoPass

/-! ### Steps that only place labels -/

theorem extent_map_place (names : List String) : extent (names.map .place) = names.length := by
  induction names with
  | nil => rfl
  | cons name names ih =>
    rw [List.map_cons, extent_cons, ih, List.length_cons]
    exact Nat.add_comm 1 _

theorem not_mem_missing_of_placed {as : List Step} {name : String} (h : .place name ∈ as) :
    name ∉ missing as := by
  simp [missing, h]

/-- Placing names ends the waiting for them, and keeps the order of the others. -/
theorem missing_append_places (as : List Step) (names : List String) :
    missing (as ++ names.map .place) = (missing as).filter fun name => name ∉ names := by
  have hreferences : (as ++ names.map Step.place).filterMap Step.reference? =
      as.filterMap Step.reference? := by
    have hnone : (names.map Step.place).filterMap Step.reference? = [] := by
      simp [List.filterMap_map, Step.reference?]
    rw [List.filterMap_append, hnone, List.append_nil]
  rw [missing, missing, hreferences, ← eraseDups_filter, List.filter_filter]
  congr 2
  funext name
  simp [and_comm, not_or]

/-- Labels can still be placed in a row behind code of some length. -/
def Room (size labels : Nat) : Prop :=
  labels = 0 ∨ size + labels - 1 ≤ maxOffset

theorem Room.le {size labels less : Nat} (h : Room size labels) (hle : less ≤ labels) :
    Room size less := by
  unfold Room at *
  omega

/-- Names that are not placed can be placed one after another while there is room. -/
theorem Lawful.append_places {as : List Step} (h : Lawful as) {names : List String}
    (hnodup : names.Nodup) (hnew : ∀ name ∈ names, Step.place name ∉ as)
    (hroom : Room (extent as) names.length) : Lawful (as ++ names.map .place) := by
  induction names using List.reverseRecOn with
  | nil => simpa using h
  | append_singleton names name ih =>
    obtain ⟨hfront, -, hdisjoint⟩ := List.nodup_append.mp hnodup
    have hrest := ih hfront (fun label hlabel => hnew label (by simp [hlabel]))
      (hroom.le (by simp))
    have hname : name ∉ names := fun hmem => hdisjoint name hmem name (by simp) rfl
    rw [List.map_append, ← List.append_assoc]
    refine hrest.concat (not_or.mpr ⟨?_, ?_⟩)
    · simp [hname, hnew name (by simp)]
    · rw [extent_append, extent_map_place]
      rw [List.length_append, List.length_singleton] at hroom
      unfold Room maxOffset at hroom
      omega

/-- Behind code that is too long no label is placed. -/
theorem Lawful.not_placed_of_lt {as bs : List Step} (h : Lawful (as ++ bs))
    (hlt : maxOffset < extent as) (name : String) : Step.place name ∉ bs := by
  intro hmem
  obtain ⟨before, after, rfl⟩ := List.append_of_mem hmem
  have hnot := h (as ++ before) (.place name) after (by simp)
  refine hnot (Or.inr ?_)
  rw [extent_append]
  unfold maxOffset at hlt
  omega

/-- Steps that place no label leave every name waiting, in front of those they add. -/
theorem missing_prefix {as bs : List Step} (h : ∀ name, Step.place name ∉ bs) :
    missing as <+: missing (as ++ bs) := by
  have hplaced : ∀ name, Step.place name ∉ as ++ bs ↔ Step.place name ∉ as := by
    intro name
    simp [h name]
  rw [missing, missing, List.filterMap_append, List.filter_append]
  simp only [hplaced]
  exact eraseDups_prefix _ _

end TwoPass

namespace Labels

theorem pending_eq_empty {t : Labels} (h : t.unresolved = []) : t.pending = #[] := by
  refine Array.eq_empty_iff_forall_not_mem.mpr ?_
  rintro ⟨name, site⟩ hmem
  have hname : name ∈ t.unresolved := mem_unresolved.mpr ⟨site, hmem⟩
  rw [h] at hname
  cases hname

end Labels

namespace Session

/-- A session in which nothing waits is finished, if a loader can say how long its code is. -/
theorem finalize_of_resolved {s : Session} (h : s.labels.unresolved = [])
    (hsize : s.size < 256 ^ maxPush) : ∃ d, s.finalize = .ok d ∧ d.runtime = s.code := by
  have hruntime : s.runtime = .ok s.code := by
    simp [runtime, Labels.checkResolved, Labels.pending_eq_empty h]
  have hlength : s.code.size < 256 ^ maxPush := hsize
  refine ⟨⟨Instr.flatten (Loader.instrs (Loader.settled s.code.size) s.code.size), s.code⟩, ?_, rfl⟩
  simp only [finalize, hruntime, Loader.build_of_lt hlength]

/-- The name waits in `s`, its label is placed, and in `t` all other names wait that waited in `s`,
in the same order. -/
structure Places (s : Session) (name : String) (t : Session) : Prop where
  taken : s.step (.place name) = (t, none)
  waited : name ∈ s.labels.unresolved
  others : t.labels.unresolved = s.labels.unresolved.filter fun other => other ≠ name

namespace Linked

variable {as : List Step} {s : Session}

/-- Placing names that wait is never refused while there is room. -/
theorem run_places (h : Linked as s) {names : List String} (hnodup : names.Nodup)
    (hwaits : ∀ name ∈ names, name ∈ s.labels.unresolved) (hroom : Room s.size names.length) :
    ∃ t, s.run (names.map .place) = (t, none) ∧ Linked (as ++ names.map .place) t ∧
      t.size = s.size + names.length ∧
      t.labels.unresolved = s.labels.unresolved.filter fun name => name ∉ names := by
  have hnew : ∀ name ∈ names, Step.place name ∉ as := by
    intro name hname hplaced
    have hmissing := hwaits name hname
    rw [h.unresolved] at hmissing
    exact not_mem_missing_of_placed hplaced hmissing
  rw [h.size] at hroom
  obtain ⟨t, ht⟩ := h.exists_run (h.lawful.append_places hnodup hnew hroom)
  have hlinked := h.run ht
  refine ⟨t, ht, hlinked, ?_, ?_⟩
  · rw [hlinked.size, h.size, extent_append, extent_map_place]
  · rw [hlinked.unresolved, h.unresolved, missing_append_places]

theorem exists_places (h : Linked as s) {name : String} (hname : name ∈ s.labels.unresolved)
    (hle : s.size ≤ maxOffset) : ∃ t, Places s name t := by
  have hwaits : ∀ label ∈ [name], label ∈ s.labels.unresolved := by simpa using hname
  obtain ⟨t, ht, -, -, hunresolved⟩ := h.run_places (by simp) hwaits (Or.inr hle)
  refine ⟨t, (run_singleton s _).symm.trans ht, hname, ?_⟩
  rw [hunresolved]
  simp

/-- Where a name waited, the finished code jumps to where the name was placed. -/
theorem lands_of_waiting (h : Linked as s) {bs : List Step} {t : Session}
    (ht : Linked (as ++ bs) t) {name : String} {offset : Nat}
    (hoffset : (name, offset) ∈ table (as ++ bs)) {site : Nat}
    (hsite : site ∈ s.labels.sites name) :
    Lands t.code.toList (site - 1) offset ∧
      Bytes.valueOf ((t.code.toList.drop site).take labelWidth) = offset := by
  obtain ⟨hreference, -⟩ := h.mem_pending.mp (Labels.mem_sites.mp hsite)
  obtain ⟨pc, a, hlayout, ha, rfl⟩ := mem_references.mp hreference
  have hmem : (pc, a) ∈ layout 0 (as ++ bs) := by
    rw [layout_append]
    exact List.mem_append_left _ hlayout
  have hlookup := ht.lawful.lookup_of_mem_table hoffset
  refine ⟨ht.lands hmem ha hlookup, ?_⟩
  show Bytes.valueOf ((t.code.toList.drop (pc + 1)).take 3) = offset
  rw [ht.operand_at hmem ha, valueOf_operand hlookup (ht.lawful.le_of_mem_table hoffset)]

/-! ### Code that is too long -/

/-- **Behind code that is too long every label is refused, and what waits stays waiting.** -/
theorem stuck (h : Linked as s) (hlt : maxOffset < s.size) :
    (∀ name, ∃ fault, (s.step (.place name)).2 = some fault) ∧
      ∀ bs, s.labels.unresolved <+: (s.attempt bs).1.labels.unresolved := by
  have hextent : maxOffset < extent as := by
    rw [← h.size]
    exact hlt
  refine ⟨?_, ?_⟩
  · intro name
    obtain ⟨fault, hstep⟩ := h.step_refused (a := .place name) (Or.inr hextent)
    exact ⟨fault, by rw [hstep]⟩
  · intro bs
    have hlinked := h.attempt bs
    rw [hlinked.unresolved, h.unresolved]
    exact missing_prefix (hlinked.lawful.not_placed_of_lt hextent)

theorem size_le_attempt (h : Linked as s) (bs : List Step) : s.size ≤ (s.attempt bs).1.size := by
  rw [h.size, (h.attempt bs).size, extent_append]
  exact Nat.le_add_right _ _

end Linked

/-- **No reference is stuck, as long as the code has room for its label.** In every state of a
session whose length fits a machine word, the names that wait can be placed, each once, in any
order. Each of them is taken, and ends the waiting for itself alone; then the session can be
finished, and where a name waited the finished code jumps to the `JUMPDEST` that was placed for it.

In every state in which the code is too long, every label is refused, and whatever is done from then
on, no name that waits ceases to. -/
theorem waiting_names_can_be_placed (as : List Step) :
    let s := (attempt {} as).1
    (∀ order : List String, s.size < 2 ^ 64 → order.Perm s.labels.unresolved →
      (s.labels.unresolved.length = 0 ∨
        s.size + s.labels.unresolved.length - 1 ≤ maxOffset) →
      ∃ t d, s.run (order.map .place) = (t, none) ∧ t.finalize = .ok d ∧
        ∀ front name back, order = front ++ name :: back →
          ∃ u v, s.run (front.map .place) = (u, none) ∧ Places u name v ∧
            ∀ site ∈ s.labels.sites name, Lands d.runtime.toList (site - 1) u.size ∧
              Bytes.valueOf ((d.runtime.toList.drop site).take labelWidth) = u.size) ∧
      (maxOffset < s.size → ∀ bs,
        let u := (s.attempt bs).1
        (∀ name, ∃ fault, (u.step (.place name)).2 = some fault) ∧
          ∀ cs, u.labels.unresolved <+: (u.attempt cs).1.labels.unresolved) := by
  intro s
  have hlinked : Linked (taken {} as) s := linked_attempt as
  refine ⟨?_, ?_⟩
  · intro order hword hperm hroom
    have hnodup : order.Nodup := hperm.nodup_iff.mpr (nodup_eraseDups _)
    have hwaits : ∀ name ∈ order, name ∈ s.labels.unresolved := fun name => hperm.mem_iff.mp
    have hroom : Room s.size order.length := by
      rw [hperm.length_eq]
      exact hroom
    obtain ⟨t, ht, hlinkedt, hsize, hunresolved⟩ := hlinked.run_places hnodup hwaits hroom
    have hresolved : t.labels.unresolved = [] := by
      rw [hunresolved]
      refine List.filter_eq_nil_iff.mpr fun name hname => ?_
      simpa using hperm.mem_iff.mpr hname
    have hfits : t.size < 256 ^ maxPush := by
      have hlarge : 2 ^ 64 ≤ 256 ^ maxPush := by decide
      have hmax : maxOffset + 1 < 2 ^ 64 := by decide
      unfold Room at hroom
      omega
    obtain ⟨d, hd, hruntime⟩ := finalize_of_resolved hresolved hfits
    refine ⟨t, d, ht, hd, ?_⟩
    rintro front name back rfl
    obtain ⟨hfront, hrest, hapart⟩ := List.nodup_append.mp hnodup
    have hname : name ∉ front := fun hmem => hapart name hmem name (by simp) rfl
    obtain ⟨u, hu, hlinkedu, hsizeu, hunresolvedu⟩ := hlinked.run_places hfront
      (fun label hlabel => hwaits label (by simp [hlabel])) (hroom.le (by simp))
    have hwaited : name ∈ u.labels.unresolved := by
      rw [hunresolvedu]
      simp [hwaits name (by simp), hname]
    have hle : u.size ≤ maxOffset := by
      rw [List.length_append, List.length_cons] at hroom
      unfold Room at hroom
      omega
    obtain ⟨v, hplaces⟩ := hlinkedu.exists_places hwaited hle
    refine ⟨u, v, hu, hplaces, ?_⟩
    intro site hsite
    have hoffset : (name, u.size) ∈ table (taken {} as ++ (front ++ name :: back).map .place) := by
      refine mem_table.mpr
        (mem_layout.mpr ⟨taken {} as ++ front.map .place, back.map .place, ?_, ?_⟩)
      · simp
      · rw [hlinkedu.size, Nat.zero_add]
    rw [hruntime]
    exact hlinked.lands_of_waiting hlinkedt hoffset hsite
  · intro hlt bs u
    have hlinkedu : Linked (taken {} as ++ s.taken bs) u := hlinked.attempt bs
    exact hlinkedu.stuck (hlt.trans_le (hlinked.size_le_attempt bs))

/-- Two names that wait, one of them twice, placed in the other order than they were referred to. -/
theorem waiting_names_can_be_placed_backwards :
    let s := (attempt {} [.perform (.jump (some "a")), .perform (.jumpi (some "b")),
      .perform (.jump (some "a"))]).1
    s.labels.unresolved = ["a", "b"] ∧ s.labels.sites "a" = [1, 11] ∧
      ∃ t d u v, s.run [.place "b", .place "a"] = (t, none) ∧ t.finalize = .ok d ∧
        s.run [.place "b"] = (u, none) ∧ Places u "a" v ∧ u.size = 16 ∧
        Lands d.runtime.toList 10 16 := by
  intro s
  have hunresolved : s.labels.unresolved = ["a", "b"] := by decide
  have hperm : List.Perm ["b", "a"] s.labels.unresolved := by
    rw [hunresolved]
    exact List.Perm.swap "a" "b" []
  obtain ⟨hplace, -⟩ := waiting_names_can_be_placed [.perform (.jump (some "a")),
    .perform (.jumpi (some "b")), .perform (.jump (some "a"))]
  obtain ⟨t, d, ht, hd, hturn⟩ := hplace ["b", "a"] (by decide) hperm (by decide)
  obtain ⟨u, v, hu, hplaces, hsites⟩ := hturn ["b"] "a" [] rfl
  have hsize : u.size = 16 := by
    have hrun : u = (s.run [.place "b"]).1 := (congrArg Prod.fst hu).symm
    rw [hrun]
    decide
  refine ⟨hunresolved, by decide, t, d, u, v, ht, hd, hu, hplaces, hsize, ?_⟩
  obtain ⟨hlands, -⟩ := hsites 11 (by decide)
  rwa [hsize] at hlands

end Session

end BytecodeAssembler
