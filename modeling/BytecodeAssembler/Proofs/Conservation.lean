import BytecodeAssembler.Proofs.Distinct
import BytecodeAssembler.Proofs.Ledger

/-!
# No site is lost

A label table on its own, under any calls in any order: sites may be recorded for a name that is
placed already, and labels may be placed at any offset.

* `Call`, `Answer` — what a table is asked, and what it answers;
* `after t calls` and `log t calls` — the table that calls leave, and the calls with their answers;
* `Accounts past t` — what the table says of the calls that were made, and what they say of it.

The log is read in three ways: which labels were placed with which sites (`placements`), which sites
were recorded for a name (`deferred`), and which of the calls that recorded one is the place of a
site that still waits (`Waits`). A call keeps `Accounts` (`Accounts.call`), so all calls do.
-/

namespace BytecodeAssembler

namespace Labels

/-! ### Calls -/

/-- What a label table is asked. -/
inductive Call
  /-- To place a label. -/
  | define (name : String) (offset : Nat)
  /-- To record a site that waits for a name. -/
  | defer (name : String) (site : Nat)
  deriving Repr, DecidableEq

/-- What a label table answers. -/
inductive Answer
  /-- The site is recorded. -/
  | recorded
  /-- The label is placed, and these sites waited for it. -/
  | placed (sites : List Nat)
  /-- The label cannot be placed. -/
  | refused (fault : Fault)
  deriving Repr, DecidableEq

/-- Whether a call was refused. -/
def Answer.isRefused : Answer → Bool
  | refused _ => true
  | _ => false

/-- Makes a call. A label that cannot be placed leaves the table as it is. -/
def call (t : Labels) : Call → Labels × Answer
  | .define name offset =>
    match t.define name offset with
    | .ok (sites, left) => (left, .placed sites)
    | .error fault => (t, .refused fault)
  | .defer name site => (t.defer name site, .recorded)

/-- The table that calls leave. -/
def after (t : Labels) : List Call → Labels
  | [] => t
  | c :: calls => (t.call c).1.after calls

/-- Calls with their answers. -/
def log (t : Labels) : List Call → List (Call × Answer)
  | [] => []
  | c :: calls => (c, (t.call c).2) :: (t.call c).1.log calls

/-- The calls of a log that were not refused. -/
def accepted (past : List (Call × Answer)) : List Call :=
  (past.filter fun entry => !entry.2.isRefused).map Prod.fst

/-- The label that a call placed, with its offset and the sites that it was handed. -/
def placement? : Call × Answer → Option (String × Nat × List Nat)
  | (.define name offset, .placed sites) => some (name, offset, sites)
  | _ => none

/-- The labels that calls placed. -/
def placements (past : List (Call × Answer)) : List (String × Nat × List Nat) :=
  past.filterMap placement?

/-- What the calls that placed a name were handed. -/
def handedOut (name : String) (past : List (Call × Answer)) : List (List Nat) :=
  ((placements past).filter fun p => p.1 == name).map fun p => p.2.2

/-- The site that a call records for a name. -/
def Call.site? (name : String) : Call → Option Nat
  | .defer label site => if label = name then some site else none
  | .define _ _ => none

/-- The sites that calls record for a name. -/
def deferred (name : String) (calls : List Call) : List Nat :=
  calls.filterMap (Call.site? name)

/-- A site that was recorded by the call at a position, and was not handed out since. -/
def WaitsAt (past : List (Call × Answer)) (i : Nat) (name : String) (site : Nat) : Prop :=
  past[i]? = some (.defer name site, .recorded) ∧
    ∀ j offset sites, past[j]? = some (.define name offset, .placed sites) → j < i

/-- The call at a position recorded a site that still waits. -/
def Waits (past : List (Call × Answer)) (i : Nat) (name : String) : Prop :=
  ∃ site, WaitsAt past i name site

/-! ### One more call in a log -/

theorem getElem?_concat_eq_some_iff {α : Type} {as : List α} {a b : α} {i : Nat} :
    (as ++ [a])[i]? = some b ↔ as[i]? = some b ∨ i = as.length ∧ a = b := by
  rw [List.getElem?_append]
  split
  · next hlt => simp [Nat.ne_of_lt hlt]
  · next hge =>
    rw [List.getElem?_eq_none (Nat.not_lt.mp hge)]
    by_cases hi : i = as.length
    · simp [hi]
    · have hne : i - as.length ≠ 0 := by omega
      simp [hi, hne]

section Concat

variable {past : List (Call × Answer)} {name label : String} {i : Nat}

theorem lt_length_of_getElem? {α : Type} {as : List α} {a : α} {i : Nat} (h : as[i]? = some a) :
    i < as.length :=
  (List.getElem?_eq_some_iff.mp h).1

theorem waitsAt_concat_defer {site s : Nat} :
    WaitsAt (past ++ [(.defer label site, .recorded)]) i name s ↔
      WaitsAt past i name s ∨ i = past.length ∧ label = name ∧ site = s := by
  simp only [WaitsAt, getElem?_concat_eq_some_iff, Prod.mk.injEq, Call.defer.injEq, reduceCtorEq,
    and_false, or_false, and_true]
  constructor
  · rintro ⟨hcall | hlast, hplaced⟩
    · exact Or.inl ⟨hcall, hplaced⟩
    · exact Or.inr hlast
  · rintro (⟨hcall, hplaced⟩ | hlast)
    · exact ⟨Or.inl hcall, hplaced⟩
    · refine ⟨Or.inr hlast, ?_⟩
      intro j offset sites hj
      rw [hlast.1]
      exact lt_length_of_getElem? hj

theorem waitsAt_concat_placed {offset s : Nat} {sites : List Nat} :
    WaitsAt (past ++ [(.define label offset, .placed sites)]) i name s ↔
      WaitsAt past i name s ∧ name ≠ label := by
  simp only [WaitsAt, getElem?_concat_eq_some_iff, Prod.mk.injEq, Call.define.injEq,
    Answer.placed.injEq, reduceCtorEq, and_false, or_false]
  constructor
  · rintro ⟨hcall, hplaced⟩
    refine ⟨⟨hcall, fun j offset sites hj => hplaced j offset sites (Or.inl hj)⟩, ?_⟩
    rintro rfl
    -- the label was placed behind the call
    have hlast := hplaced past.length offset sites (Or.inr ⟨rfl, ⟨rfl, rfl⟩, rfl⟩)
    exact absurd (lt_length_of_getElem? hcall) (Nat.not_lt.mpr (Nat.le_of_lt hlast))
  · rintro ⟨⟨hcall, hplaced⟩, hne⟩
    refine ⟨hcall, ?_⟩
    rintro j offset sites (hj | ⟨-, ⟨rfl, -⟩, -⟩)
    · exact hplaced j offset sites hj
    · exact absurd rfl hne

theorem waitsAt_concat_refused {offset s : Nat} {fault : Fault} :
    WaitsAt (past ++ [(.define label offset, .refused fault)]) i name s ↔
      WaitsAt past i name s := by
  simp only [WaitsAt, getElem?_concat_eq_some_iff, Prod.mk.injEq, reduceCtorEq, and_false,
    or_false]

theorem placements_concat (entry : Call × Answer) :
    placements (past ++ [entry]) = placements past ++ (placement? entry).toList := by
  rw [placements, placements, List.filterMap_append]
  cases h : placement? entry <;> simp [h]

theorem placements_concat_of_none {entry : Call × Answer} (h : placement? entry = none) :
    placements (past ++ [entry]) = placements past := by
  rw [placements_concat, h, Option.toList_none, List.append_nil]

theorem handedOut_concat_of_none {entry : Call × Answer} (h : placement? entry = none) :
    handedOut name (past ++ [entry]) = handedOut name past := by
  rw [handedOut, placements_concat_of_none h, ← handedOut]

theorem deferred_concat (calls : List Call) (c : Call) :
    deferred name (calls ++ [c]) = deferred name calls ++ (c.site? name).toList := by
  rw [deferred, deferred, List.filterMap_append]
  cases h : c.site? name <;> simp [h]

theorem handedOut_concat_placed (offset : Nat) (sites : List Nat) :
    handedOut name (past ++ [(.define label offset, .placed sites)]) =
      handedOut name past ++ if label = name then [sites] else [] := by
  rw [handedOut, placements_concat, List.filter_append, List.map_append, ← handedOut]
  by_cases hname : label = name <;> simp [placement?, hname]

end Concat

theorem sites_filter_self (t : Labels) (defined : Array (String × Nat)) (name : String) :
    (⟨defined, t.pending.filter fun entry => entry.1 != name⟩ : Labels).sites name = [] := by
  rw [sites, List.map_eq_nil_iff, List.filter_eq_nil_iff]
  simp

theorem sites_filter_of_ne {t : Labels} {defined : Array (String × Nat)} {name label : String}
    (h : name ≠ label) :
    (⟨defined, t.pending.filter fun entry => entry.1 != name⟩ : Labels).sites label =
      t.sites label := by
  rw [sites, sites, Array.toList_filter, List.filter_filter]
  congr 2
  funext entry
  by_cases hentry : entry.1 = label
  · simp [hentry, h.symm]
  · simp [hentry]

/-! ### The accounts of a table -/

/-- What a table holds after the calls of a log. -/
structure Accounts (past : List (Call × Answer)) (t : Labels) : Prop where
  defined : t.defined.toList = (placements past).map fun p => (p.1, p.2.1)
  distinct : ((placements past).map Prod.fst).Nodup
  sites : ∀ name, deferred name (past.map Prod.fst) = (handedOut name past).flatten ++ t.sites name
  waiting : ∃ stamps : List (Nat × String × Nat), stamps.map Prod.snd = t.pending.toList ∧
    (stamps.Pairwise fun x y => x.1 < y.1) ∧
    ∀ i name site, (i, name, site) ∈ stamps ↔ WaitsAt past i name site

theorem accounts_nil : Accounts [] {} where
  defined := rfl
  distinct := List.nodup_nil
  sites _ := rfl
  waiting := ⟨[], rfl, .nil, by simp [WaitsAt]⟩

theorem call_define_of_refusal {t : Labels} {name : String} {offset : Nat} {fault : Fault}
    (h : t.refusal? name offset = some fault) :
    t.call (.define name offset) = (t, .refused fault) := by
  simp only [call, define, h]

theorem call_define_of_no_refusal {t : Labels} {name : String} {offset : Nat}
    (h : t.refusal? name offset = none) : t.call (.define name offset) =
      (⟨t.defined.push (name, offset), t.pending.filter fun entry => entry.1 != name⟩,
        .placed (t.sites name)) := by
  simp only [call, define, h]

theorem offset?_of_no_refusal {t : Labels} {name : String} {offset : Nat}
    (h : t.refusal? name offset = none) : t.offset? name = none := by
  rw [refusal?] at h
  split at h
  · cases h
  · next hnot => simpa using hnot

section Steps

variable {past : List (Call × Answer)} {t : Labels} (h : Accounts past t)
include h

theorem Accounts.handedOut_eq_nil_iff {name : String} :
    handedOut name past = [] ↔ t.offset? name = none := by
  rw [offset?_eq_lookup, h.defined, List.lookup_eq_none_iff, handedOut, List.map_eq_nil_iff,
    List.filter_eq_nil_iff]
  have hne : ∀ p : String × Nat × List Nat, (¬ (p.1 == name) = true) ↔ (name != p.1) = true := by
    intro p
    rw [bne_iff_ne, beq_iff_eq, ne_comm]
  simp only [List.forall_mem_map, hne]

theorem Accounts.defer (name : String) (site : Nat) :
    Accounts (past ++ [(.defer name site, .recorded)]) (t.defer name site) where
  defined := by
    rw [placements_concat_of_none rfl]
    exact h.defined
  distinct := by
    rw [placements_concat_of_none rfl]
    exact h.distinct
  sites label := by
    have hsites : (t.defer name site).sites label =
        t.sites label ++ ((Call.defer name site).site? label).toList := by
      by_cases hname : name = label <;> simp [Labels.sites, Labels.defer, Call.site?, hname]
    rw [List.map_append, List.map_singleton, deferred_concat, h.sites, hsites,
      handedOut_concat_of_none rfl, List.append_assoc]
  waiting := by
    obtain ⟨stamps, hpending, hascending, hmem⟩ := h.waiting
    refine ⟨stamps ++ [(past.length, name, site)], ?_, ?_, ?_⟩
    · simp [hpending, Labels.defer]
    · refine List.pairwise_append.mpr ⟨hascending, List.pairwise_singleton _ _, ?_⟩
      rintro ⟨i, label, s⟩ hstamp y hy
      obtain rfl := List.mem_singleton.mp hy
      exact lt_length_of_getElem? ((hmem i label s).mp hstamp).1
    · intro i label s
      rw [waitsAt_concat_defer, ← hmem]
      simp [eq_comm]

theorem Accounts.place {name : String} {offset : Nat} (hname : t.offset? name = none) :
    Accounts (past ++ [(.define name offset, .placed (t.sites name))])
      ⟨t.defined.push (name, offset), t.pending.filter fun entry => entry.1 != name⟩ where
  defined := by
    rw [placements_concat]
    simp [placement?, h.defined]
  distinct := by
    have hfresh : name ∉ (placements past).map Prod.fst := by
      intro hmem
      obtain ⟨p, hp, hp'⟩ := List.mem_map.mp hmem
      have hnone := h.handedOut_eq_nil_iff.mpr hname
      rw [handedOut, List.map_eq_nil_iff, List.filter_eq_nil_iff] at hnone
      exact hnone p hp (beq_iff_eq.mpr hp')
    rw [placements_concat, placement?, Option.toList_some, List.map_append, List.map_singleton]
    refine List.nodup_append.mpr ⟨h.distinct, by simp, ?_⟩
    intro label hlabel last hlast
    obtain rfl := List.mem_singleton.mp hlast
    rintro rfl
    exact hfresh hlabel
  sites label := by
    rw [List.map_append, List.map_singleton, deferred_concat, h.sites, handedOut_concat_placed,
      Call.site?, Option.toList_none, List.append_nil]
    by_cases hlabel : name = label
    · subst hlabel
      rw [h.handedOut_eq_nil_iff.mpr hname, sites_filter_self]
      simp
    · rw [sites_filter_of_ne hlabel, if_neg hlabel, List.append_nil]
  waiting := by
    obtain ⟨stamps, hpending, hascending, hmem⟩ := h.waiting
    refine ⟨stamps.filter fun x => x.2.1 != name, ?_, hascending.filter _, ?_⟩
    · rw [Array.toList_filter, ← hpending, List.filter_map]
      rfl
    · intro i label s
      rw [waitsAt_concat_placed, ← hmem]
      simp

theorem Accounts.refuse (name : String) (offset : Nat) (fault : Fault) :
    Accounts (past ++ [(.define name offset, .refused fault)]) t where
  defined := by
    rw [placements_concat_of_none rfl]
    exact h.defined
  distinct := by
    rw [placements_concat_of_none rfl]
    exact h.distinct
  sites label := by
    rw [List.map_append, List.map_singleton, deferred_concat, h.sites,
      handedOut_concat_of_none rfl]
    exact List.append_nil _
  waiting := by
    obtain ⟨stamps, hpending, hascending, hmem⟩ := h.waiting
    refine ⟨stamps, hpending, hascending, ?_⟩
    intro i label s
    rw [waitsAt_concat_refused, hmem]

theorem Accounts.call (c : Call) : Accounts (past ++ [(c, (t.call c).2)]) (t.call c).1 := by
  cases c with
  | defer name site => exact h.defer name site
  | define name offset =>
    cases hrefusal : t.refusal? name offset with
    | some fault =>
      rw [call_define_of_refusal hrefusal]
      exact h.refuse name offset fault
    | none =>
      rw [call_define_of_no_refusal hrefusal]
      exact h.place (offset?_of_no_refusal hrefusal)

/-- **Calls keep the accounts.** -/
theorem Accounts.run (calls : List Call) : Accounts (past ++ t.log calls) (t.after calls) := by
  induction calls generalizing past t with
  | nil =>
    rw [log, List.append_nil]
    exact h
  | cons c calls ih =>
    have hrest := ih (h.call c)
    rwa [List.append_assoc] at hrest

/-- A name is placed at most once. -/
theorem Accounts.exists_handedOut (name : String) :
    ∃ handed : Option (List Nat), handedOut name past = handed.toList := by
  have hnodup : (((placements past).filter fun p => p.1 == name).map Prod.fst).Nodup :=
    h.distinct.sublist (List.filter_sublist.map _)
  have hname : ∀ p ∈ (placements past).filter fun p => p.1 == name, p.1 = name := by
    intro p hp
    exact beq_iff_eq.mp (List.mem_filter.mp hp).2
  rw [handedOut]
  generalize (placements past).filter (fun p => p.1 == name) = placed at hnodup hname
  rcases placed with _ | ⟨p, _ | ⟨q, rest⟩⟩
  · exact ⟨none, rfl⟩
  · exact ⟨some p.2.2, rfl⟩
  · have hsame : p.1 = q.1 := (hname p (by simp)).trans (hname q (by simp)).symm
    simp [hsame] at hnodup

theorem Accounts.mem_unresolved_iff {name : String} :
    name ∈ t.unresolved ↔ ∃ i, Waits past i name := by
  obtain ⟨stamps, hpending, -, hmem⟩ := h.waiting
  rw [mem_unresolved]
  simp only [Waits, ← hmem, ← Array.mem_toList_iff, ← hpending, List.mem_map]
  constructor
  · rintro ⟨site, ⟨i, label, s⟩, hstamp, heq⟩
    obtain ⟨rfl, rfl⟩ := Prod.mk.inj heq
    exact ⟨i, _, hstamp⟩
  · rintro ⟨i, site, hstamp⟩
    exact ⟨site, _, hstamp, rfl⟩

/-- The names that wait stand in the order of the calls that recorded their earliest sites. -/
theorem Accounts.unresolved_pairwise :
    t.unresolved.Pairwise fun a b => ∃ i, Waits past i a ∧ ∀ j, Waits past j b → i < j := by
  obtain ⟨stamps, hpending, hascending, hmem⟩ := h.waiting
  have hnames : t.unresolved = (stamps.map fun x => x.2.1).eraseDups := by
    rw [unresolved, ← hpending, List.map_map]
    rfl
  rw [hnames]
  refine (eraseDups_map_pairwise hascending).imp ?_
  rintro a b ⟨⟨i, label, site⟩, hstamp, rfl, hall⟩
  refine ⟨i, ⟨site, (hmem i label site).mp hstamp⟩, ?_⟩
  rintro j ⟨s, hs⟩
  exact hall (j, b, s) ((hmem j b s).mpr hs) rfl

end Steps

/-! ### All calls -/

theorem map_fst_log (t : Labels) (calls : List Call) : (t.log calls).map Prod.fst = calls := by
  induction calls generalizing t with
  | nil => rfl
  | cons c calls ih => rw [log, List.map_cons, ih]

theorem fst_call_of_refused {t : Labels} {c : Call} (h : (t.call c).2.isRefused = true) :
    (t.call c).1 = t := by
  cases c with
  | defer name site => cases h
  | define name offset =>
    cases hrefusal : t.refusal? name offset with
    | some fault => rw [call_define_of_refusal hrefusal]
    | none =>
      rw [call_define_of_no_refusal hrefusal] at h
      cases h

/-- Calls that are refused change nothing. -/
theorem after_accepted (t : Labels) (calls : List Call) :
    t.after (accepted (t.log calls)) = t.after calls := by
  induction calls generalizing t with
  | nil => rfl
  | cons c calls ih =>
    cases hrefused : (t.call c).2.isRefused with
    | true =>
      have haccepted : accepted (t.log (c :: calls)) = accepted ((t.call c).1.log calls) := by
        simp [accepted, log, hrefused]
      rw [haccepted, after]
      nth_rewrite 1 [← fst_call_of_refused hrefused]
      exact ih _
    | false =>
      have haccepted : accepted (t.log (c :: calls)) = c :: accepted ((t.call c).1.log calls) := by
        simp [accepted, log, hrefused]
      rw [haccepted, after, after]
      exact ih _

/-- **A label table neither loses nor duplicates a site.** After any calls on an empty table,

* a name was placed at most once, and the sites recorded for it are those handed out then, and
  behind them those that still wait;
* a label is refused if it was placed before, and otherwise exactly if its offset is too large; else
  the sites handed out are all that were recorded for it;
* the table is as if the calls that were refused had not been made;
* the labels in the table are those that were placed, in that order and with their offsets, and none
  is there twice;
* the names listed as waiting are those for which a site waits, each once, by the call that recorded
  the earliest of their sites that still wait. -/
theorem calls_conserve_sites (calls : List Call) :
    let t := after {} calls
    let past := log {} calls
    (∀ name, ∃ handed : Option (List Nat), handedOut name past = handed.toList ∧
      deferred name calls = handed.getD [] ++ t.sites name) ∧
    (∀ name offset, (t.call (.define name offset)).2 =
      if handedOut name past ≠ [] then .refused (.duplicateLabel name)
      else if maxOffset < offset then .refused (.offsetOverflow name offset)
      else .placed (deferred name calls)) ∧
    after {} (accepted past) = t ∧
    t.defined.toList = ((placements past).map fun p => (p.1, p.2.1)) ∧
    (t.defined.toList.map Prod.fst).Nodup ∧
    (∀ name, name ∈ t.unresolved ↔ t.sites name ≠ []) ∧
    (∀ name, name ∈ t.unresolved ↔ ∃ i, Waits past i name) ∧
    t.unresolved.Nodup ∧
    t.unresolved.Pairwise fun a b => ∃ i, Waits past i a ∧ ∀ j, Waits past j b → i < j := by
  intro t past
  have h : Accounts past t := accounts_nil.run calls
  have hsites : ∀ name, deferred name calls = (handedOut name past).flatten ++ t.sites name := by
    intro name
    rw [← h.sites, map_fst_log]
  refine ⟨?_, ?_, after_accepted {} calls, h.defined, ?_, ?_, fun name => h.mem_unresolved_iff,
    nodup_eraseDups _, h.unresolved_pairwise⟩
  · intro name
    obtain ⟨handed, hhanded⟩ := h.exists_handedOut name
    refine ⟨handed, hhanded, ?_⟩
    rw [hsites, hhanded]
    cases handed <;> simp
  · intro name offset
    by_cases hplaced : handedOut name past = []
    · have hname := h.handedOut_eq_nil_iff.mp hplaced
      rw [if_neg (not_not.mpr hplaced)]
      split
      · next hlt => simp [Labels.call, define_of_lt hname hlt]
      · next hle =>
        simp [Labels.call, define_of_le hname (Nat.not_lt.mp hle), hsites, hplaced]
    · have hsome : (t.offset? name).isSome = true := by
        rw [← Option.isSome_iff_ne_none.symm]
        exact mt h.handedOut_eq_nil_iff.mpr hplaced
      rw [if_pos hplaced]
      simp [Labels.call, define_of_some hsome]
  · rw [h.defined, List.map_map]
    exact h.distinct
  · intro name
    rw [mem_unresolved]
    simp only [← mem_sites]
    exact ⟨fun ⟨site, hsite⟩ => List.ne_nil_of_mem hsite, List.exists_mem_of_ne_nil _⟩

/-- A site for a name that is placed already, a label that is placed twice, and one too far away. -/
theorem calls_conserve_sites_late :
    let calls : List Call := [.defer "a" 1, .defer "b" 6, .define "a" 20, .defer "a" 11,
      .define "a" 21, .define "b" 0x1000000, .defer "b" 16]
    let t := after {} calls
    deferred "a" calls = [1] ++ t.sites "a" ∧ t.sites "a" = [11] ∧
      (t.call (.define "a" 22)).2 = .refused (.duplicateLabel "a") ∧
      (t.call (.define "b" 22)).2 = .placed [6, 16] ∧ t.unresolved = ["b", "a"] ∧
      t.defined.toList = [("a", 20)] := by
  intro calls t
  obtain ⟨hsites, hanswers, -, hdefined, -⟩ := calls_conserve_sites calls
  obtain ⟨handed, hhanded, ha⟩ := hsites "a"
  obtain rfl : handed = some [1] := by
    have hone : handedOut "a" (log {} calls) = [[1]] := by decide
    rw [hone] at hhanded
    cases handed with
    | none => cases hhanded
    | some sites => rw [(List.cons.inj hhanded).1]
  refine ⟨ha, by decide, ?_, ?_, by decide, ?_⟩
  · rw [hanswers]
    decide
  · rw [hanswers]
    decide
  · rw [hdefined]
    decide

end Labels

end BytecodeAssembler
