import BytecodeAssembler.Proofs.Disassembly

/-!
# The ledger of waiting sites

A site that waits is the operand of a jump to a name that is not placed. `Ledger s` says what that
means for the code of `s`: around every site stands a `PUSH3` of three zeros and a jump operation,
no two of these jumps share a byte, and none of them covers the `JUMPDEST` of a label.

A session keeps this because its sites are the references of the steps it took (`Linked.ledger`),
and these lie behind one another (`references_pairwise`). So placing a label writes inside the code
and into operands only (`Ledger.in_bounds`).
-/

namespace BytecodeAssembler

open TwoPass

namespace TwoPass

/-! ### References lie behind one another -/

theorem width_of_reference {a : Step} {name : String} (h : a.reference? = some name) :
    a.width = 5 := by
  rcases a with label | (o | v | n | n | target | target)
  case perform.jump | perform.jumpi =>
    obtain rfl : target = some name := h
    rfl
  all_goals exact absurd h (by simp [Step.reference?, Operation.target?])

theorem mem_references {name : String} {offset site : Nat} {as : List Step} :
    (name, site) ∈ references offset as ↔
      ∃ pc a, (pc, a) ∈ layout offset as ∧ a.reference? = some name ∧ site = pc + 1 := by
  rw [references, List.mem_filterMap]
  constructor
  · rintro ⟨⟨pc, a⟩, hmem, hentry⟩
    obtain ⟨label, ha, heq⟩ := Option.map_eq_some_iff.mp hentry
    obtain ⟨rfl, rfl⟩ := Prod.mk.inj heq
    exact ⟨pc, a, hmem, ha, rfl⟩
  · rintro ⟨pc, a, hmem, ha, rfl⟩
    exact ⟨(pc, a), hmem, by simp [ha]⟩

theorem references_pairwise (offset : Nat) (as : List Step) :
    (references offset as).Pairwise fun x y => x.2 + 5 ≤ y.2 := by
  refine List.Pairwise.filterMap _ ?_ (layout_pairwise offset as)
  rintro ⟨pc, a⟩ ⟨pc', a'⟩ hle ⟨name, site⟩ hx ⟨name', site'⟩ hy
  obtain ⟨label, ha, heq⟩ := Option.map_eq_some_iff.mp hx
  obtain ⟨label', -, heq'⟩ := Option.map_eq_some_iff.mp hy
  obtain ⟨-, rfl⟩ := Prod.mk.inj heq
  obtain ⟨-, rfl⟩ := Prod.mk.inj heq'
  have hwidth := width_of_reference ha
  simp only at hle ⊢
  omega

theorem waiting_pairwise (as : List Step) :
    (waiting as).Pairwise fun x y => x.2 + 5 ≤ y.2 :=
  (references_pairwise 0 as).filter _

theorem mem_waiting {name : String} {site : Nat} {as : List Step} :
    (name, site) ∈ waiting as ↔
      (name, site) ∈ references 0 as ∧ (table as).lookup name = none := by
  rw [waiting, List.mem_filter, Option.isNone_iff_eq_none]

end TwoPass

/-! ### The invariant -/

/-- The offsets of a jump to a name whose operand is at a site: `PUSH3`, operand, jump operation. -/
def Window (site i : Nat) : Prop :=
  site - 1 ≤ i ∧ i < site + labelWidth + 1

/-- A jump with zeros for an operand stands around a site. -/
structure Waits (code : List UInt8) (site : Nat) : Prop where
  pos : 1 ≤ site
  lt : site + labelWidth < code.length
  push : code[site - 1]? = some 0x62
  zeros : (code.drop site).take labelWidth = [0, 0, 0]
  jump : code[site + labelWidth]? = some Opcode.JUMP.byte ∨
    code[site + labelWidth]? = some Opcode.JUMPI.byte

/-- **The ledger invariant**: what the sites that wait are in the code of a session. -/
structure Ledger (s : Session) : Prop where
  unplaced : ∀ name ∈ s.labels.unresolved, s.labels.offset? name = none
  referenced : ∀ name ∈ s.labels.unresolved, s.labels.sites name ≠ []
  waits : ∀ entry ∈ s.labels.pending, Waits s.code.toList entry.2
  ascending : ∀ name, (s.labels.sites name).Pairwise (· < ·)
  apart : ∀ entry ∈ s.labels.pending, ∀ other ∈ s.labels.pending, entry ≠ other →
    ∀ i, ¬ (Window entry.2 i ∧ Window other.2 i)
  clear : ∀ label ∈ s.labels.defined, ∀ entry ∈ s.labels.pending, ¬ Window entry.2 label.2

namespace Labels

theorem mem_sites {t : Labels} {name : String} {site : Nat} :
    site ∈ t.sites name ↔ (name, site) ∈ t.pending := by
  simp [sites]

theorem mem_unresolved {t : Labels} {name : String} :
    name ∈ t.unresolved ↔ ∃ site, (name, site) ∈ t.pending := by
  simp [unresolved]

end Labels

/-- A write into a site that placing a label hands out is a write inside the code. -/
theorem Ledger.in_bounds {s : Session} (h : Ledger s) {name : String} {offset : Nat}
    {sites : List Nat} {labels : Labels}
    (hdefine : s.labels.define name offset = .ok (sites, labels)) {site : Nat}
    (hsite : site ∈ sites) :
    site + labelWidth ≤ (s.code.push Opcode.JUMPDEST.byte).size := by
  rw [Labels.define] at hdefine
  split at hdefine
  · cases hdefine
  · obtain ⟨rfl, -⟩ := Prod.mk.inj (Except.ok.inj hdefine)
    have hlt := (h.waits _ (Labels.mem_sites.mp hsite)).lt
    rw [Array.length_toList] at hlt
    rw [Array.size_push]
    omega

namespace Session

namespace Linked

variable {as : List Step} {s : Session}

theorem mem_pending (h : Linked as s) {name : String} {site : Nat} :
    (name, site) ∈ s.labels.pending ↔
      (name, site) ∈ references 0 as ∧ (table as).lookup name = none := by
  rw [← Array.mem_toList_iff, h.pending, mem_waiting]

/-- A site that waits is the operand of a step that refers to its name. -/
theorem waits (h : Linked as s) {name : String} {site : Nat}
    (hmem : (name, site) ∈ s.labels.pending) : Waits s.code.toList site := by
  obtain ⟨hreference, hname⟩ := h.mem_pending.mp hmem
  obtain ⟨pc, a, hlayout, ha, rfl⟩ := mem_references.mp hreference
  obtain ⟨o, ho, hjump⟩ := h.jump_at hlayout ha
  have hoperand : operand (table as) name = [0, 0, 0] := by rw [operand, hname]
  rw [hoperand] at hjump
  -- the five bytes of the jump, one by one
  have hbyte : ∀ k < 5, s.code.toList[pc + k]? = [0x62, 0, 0, 0, o.byte][k]? := by
    intro k hk
    have hk' := congrArg (fun bytes : List UInt8 => bytes[k]?) hjump
    simpa [List.getElem?_take_of_lt hk] using hk'
  have hlast : s.code.toList[pc + 4]? = some o.byte := hbyte 4 (by omega)
  refine ⟨by omega, ?_, hbyte 0 (by omega), ?_, ?_⟩
  · obtain ⟨hlt, -⟩ := List.getElem?_eq_some_iff.mp hlast
    rw [labelWidth]
    omega
  · rw [← hoperand]
    exact h.operand_at hlayout ha
  · have hsite : pc + 1 + labelWidth = pc + 4 := rfl
    rw [hsite, hlast]
    rcases ho with rfl | rfl
    · exact Or.inl rfl
    · exact Or.inr rfl

theorem sites_pairwise (h : Linked as s) (name : String) :
    (s.labels.sites name).Pairwise fun x y => x + 5 ≤ y := by
  rw [Labels.sites, h.pending, List.pairwise_map]
  exact (waiting_pairwise as).filter _

theorem ledger (h : Linked as s) : Ledger s where
  unplaced := by
    intro name hname
    obtain ⟨site, hmem⟩ := Labels.mem_unresolved.mp hname
    rw [h.offset?]
    exact (h.mem_pending.mp hmem).2
  referenced := by
    intro name hname hnil
    obtain ⟨site, hmem⟩ := Labels.mem_unresolved.mp hname
    have hsite := Labels.mem_sites.mpr hmem
    simp [hnil] at hsite
  waits := by
    rintro ⟨name, site⟩ hmem
    exact h.waits hmem
  ascending := by
    intro name
    refine (h.sites_pairwise name).imp fun {x y} hle => ?_
    omega
  apart := by
    rintro ⟨name, site⟩ hmem ⟨name', site'⟩ hmem' hne i ⟨⟨hlow, hhigh⟩, hlow', hhigh'⟩
    rw [← Array.mem_toList_iff, h.pending] at hmem hmem'
    have hapart := Instr.apart_of_pairwise (waiting_pairwise as) hmem hmem' hne
    simp only [labelWidth] at *
    omega
  clear := by
    rintro ⟨label, offset⟩ hlabel ⟨name, site⟩ hmem ⟨hlow, hhigh⟩
    rw [← Array.mem_toList_iff, h.defined, mem_table] at hlabel
    obtain ⟨pc, a, hlayout, ha, rfl⟩ := mem_references.mp (h.mem_pending.mp hmem).1
    have hne : (offset, Step.place label) ≠ (pc, a) := by
      rintro heq
      obtain ⟨-, rfl⟩ := Prod.mk.inj heq
      cases ha
    have hplace : (Step.place label).width = 1 := rfl
    have hjump := width_of_reference ha
    have hapart := Instr.apart_of_pairwise (layout_pairwise 0 as) hlabel hlayout hne
    simp only [labelWidth] at *
    omega

end Linked

/-- **The ledger invariant holds in every state of a session**, and so a label that can be placed is
written only into bytes that the code has. -/
theorem ledger_attempt (as : List Step) :
    let s := (attempt {} as).1
    Ledger s ∧ ∀ name offset sites labels, s.labels.define name offset = .ok (sites, labels) →
      ∀ site ∈ sites, site + labelWidth ≤ (s.code.push Opcode.JUMPDEST.byte).size := by
  intro s
  have hledger : Ledger s := (linked_attempt as).ledger
  refine ⟨hledger, ?_⟩
  intro name offset sites labels hdefine site hsite
  exact hledger.in_bounds hdefine hsite

/-- Two jumps that wait for one name; a refused label and a jump to a placed one between them. -/
theorem ledger_two_waiting_jumps :
    let s := (attempt {} [.place "top", .perform (.jump (some "end")), .place "top",
      .perform (.jumpi (some "top")), .perform (.jumpi (some "end"))]).1
    s.labels.sites "end" = [2, 12] ∧ Waits s.code.toList 12 ∧
      ∃ labels, s.labels.define "end" s.size = .ok ([2, 12], labels) ∧
        12 + labelWidth ≤ (s.code.push Opcode.JUMPDEST.byte).size := by
  intro s
  obtain ⟨hledger, hbounds⟩ := ledger_attempt [.place "top", .perform (.jump (some "end")),
    .place "top", .perform (.jumpi (some "top")), .perform (.jumpi (some "end"))]
  have hdefine : ∃ labels, s.labels.define "end" s.size = .ok ([2, 12], labels) := ⟨_, rfl⟩
  obtain ⟨labels, hlabels⟩ := hdefine
  have hpending : ("end", 12) ∈ s.labels.pending := Labels.mem_sites.mp (by decide)
  refine ⟨by decide, hledger.waits _ hpending, labels, hlabels, ?_⟩
  exact hbounds "end" s.size [2, 12] labels hlabels 12 (by decide)

end Session

end BytecodeAssembler
