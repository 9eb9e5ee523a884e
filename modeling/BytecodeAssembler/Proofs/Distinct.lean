import Mathlib.Data.List.Induction
import Mathlib.Data.Set.Function

/-!
# The distinct elements of a list

`List.eraseDups` keeps each element where it stands first. A list that grows at its end gains an
element there, or nothing (`eraseDups_concat`). So the distinct elements have no duplicates, they
stand in the order of their first places (`eraseDups_map_pairwise`), and choosing among elements and
renaming them may be done before or after.
-/

namespace BytecodeAssembler

section Distinct

variable {α β : Type} [BEq α] [LawfulBEq α] [BEq β] [LawfulBEq β]

theorem eraseDups_concat (as : List α) (a : α) :
    (as ++ [a]).eraseDups = if a ∈ as then as.eraseDups else as.eraseDups ++ [a] := by
  rw [List.eraseDups_append]
  split
  · next hmem => simp [List.removeAll, hmem]
  · next hmem => simp [List.removeAll, List.eraseDups_cons, hmem]

theorem nodup_eraseDups (as : List α) : as.eraseDups.Nodup := by
  induction as using List.reverseRecOn with
  | nil => simp
  | append_singleton as a ih =>
    rw [eraseDups_concat]
    split
    · exact ih
    · next hmem =>
      refine List.nodup_append.mpr ⟨ih, by simp, ?_⟩
      intro b hb c hc
      obtain rfl := List.mem_singleton.mp hc
      rintro rfl
      exact hmem (List.mem_eraseDups.mp hb)

theorem eraseDups_filter (p : α → Bool) (as : List α) :
    (as.filter p).eraseDups = as.eraseDups.filter p := by
  induction as using List.reverseRecOn with
  | nil => simp
  | append_singleton as a ih =>
    rw [eraseDups_concat, List.filter_append]
    by_cases ha : p a
    · have hone : [a].filter p = [a] := by simp [ha]
      rw [hone, eraseDups_concat, ih]
      by_cases hmem : a ∈ as
      · simp [hmem, ha]
      · simp [hmem, ha]
    · have hnone : [a].filter p = [] := by simp [ha]
      rw [hnone, List.append_nil, ih]
      by_cases hmem : a ∈ as
      · simp [hmem]
      · simp [hmem, ha]

theorem eraseDups_map {f : α → β} {as : List α} (hf : Set.InjOn f {a | a ∈ as}) :
    (as.map f).eraseDups = as.eraseDups.map f := by
  induction as using List.reverseRecOn with
  | nil => simp
  | append_singleton as a ih =>
    have hmem : f a ∈ as.map f ↔ a ∈ as := by
      refine ⟨?_, List.mem_map_of_mem⟩
      intro himage
      obtain ⟨b, hb, heq⟩ := List.mem_map.mp himage
      obtain rfl : b = a := hf (by simp [hb]) (by simp) heq
      exact hb
    have hrest := ih (hf.mono fun b hb => List.mem_append_left _ hb)
    rw [List.map_append, List.map_singleton, eraseDups_concat, eraseDups_concat, hrest]
    by_cases ha : a ∈ as
    · rw [if_pos (hmem.mpr ha), if_pos ha]
    · rw [if_neg (mt hmem.mp ha), if_neg ha, List.map_append, List.map_singleton]

omit [BEq α] [LawfulBEq α] in
/-- Images stand in the order of the first elements that have them. -/
theorem eraseDups_map_pairwise {r : α → α → Prop} {f : α → β} {as : List α} (h : as.Pairwise r) :
    (as.map f).eraseDups.Pairwise fun b c => ∃ x ∈ as, f x = b ∧ ∀ y ∈ as, f y = c → r x y := by
  induction as using List.reverseRecOn with
  | nil => simp
  | append_singleton as a ih =>
    obtain ⟨has, -, hlast⟩ := List.pairwise_append.mp h
    have hlast : ∀ x ∈ as, r x a := fun x hx => hlast x hx a (by simp)
    have hrest : (as.map f).eraseDups.Pairwise fun b c =>
        ∃ x ∈ as ++ [a], f x = b ∧ ∀ y ∈ as ++ [a], f y = c → r x y := by
      refine (ih has).imp ?_
      rintro b c ⟨x, hx, rfl, hall⟩
      refine ⟨x, List.mem_append_left _ hx, rfl, ?_⟩
      intro y hy hc
      rcases List.mem_append.mp hy with hy | hy
      · exact hall y hy hc
      · obtain rfl := List.mem_singleton.mp hy
        exact hlast x hx
    rw [List.map_append, List.map_singleton, eraseDups_concat]
    split
    · exact hrest
    · next hmem =>
      -- the new image comes last, and only the new element has it
      refine List.pairwise_append.mpr ⟨hrest, List.pairwise_singleton _ _, ?_⟩
      intro b hb c hc
      obtain ⟨x, hx, rfl⟩ := List.mem_map.mp (List.mem_eraseDups.mp hb)
      obtain rfl := List.mem_singleton.mp hc
      refine ⟨x, List.mem_append_left _ hx, rfl, ?_⟩
      intro y hy hsame
      rcases List.mem_append.mp hy with hy | hy
      · exact absurd (hsame ▸ List.mem_map_of_mem hy) hmem
      · obtain rfl := List.mem_singleton.mp hy
        exact hlast x hx

/-- Elements that come later come behind those that were there. -/
theorem eraseDups_prefix (as bs : List α) : as.eraseDups <+: (as ++ bs).eraseDups := by
  rw [List.eraseDups_append]
  exact List.prefix_append _ _

end Distinct

end BytecodeAssembler
