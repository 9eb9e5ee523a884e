import BytecodeAssembler.Proofs.Grammar

/-!
# Letter case

Texts have the same letters (`SameLetters`) if they differ at most in the case of ASCII letters. A
function of characters that takes the two cases of each letter to one value takes such texts to one
list of values (`SameLetters.map_eq`), and what a line is read by is made of such functions:

* blank characters, separators and decimal digits are no letters;
* an operation word is mapped to one case, upper or lower, before it is compared;
* a hexadecimal digit has the value of its other case, and `0X` stands for `0x`.

So operation words of the same letters name the same operation, and push literals of the same
letters are the same operand. Where they are no names or no literals, the faults carry the texts as
they were written, and agree in their kind (`Fault.byKind`).
-/

namespace BytecodeAssembler

namespace Text

/-- Texts that differ at most in the case of ASCII letters. -/
def SameLetters (w w' : List Char) : Prop :=
  w.map Char.toLower = w'.map Char.toLower

instance (w w' : List Char) : Decidable (SameLetters w w') :=
  inferInstanceAs (Decidable (_ = _))

/-! ### Functions that do not tell the cases apart -/

theorem toLower_eq_self {c : Char} (h : ¬ (65 ≤ c.toNat ∧ c.toNat ≤ 90)) : c.toLower = c :=
  dif_neg h

section Caseless

variable {α : Type} {f : Char → α}

/-- Only the 26 capitals have another lower case. -/
theorem apply_toLower (f : Char → α)
    (h : ∀ n < 26, f (Char.ofNat (n + 97)) = f (Char.ofNat (n + 65))) (c : Char) :
    f c.toLower = f c := by
  by_cases hcapital : 65 ≤ c.toNat ∧ c.toNat ≤ 90
  · have hlower : ∀ n < 26, (Char.ofNat (n + 65)).toLower = Char.ofNat (n + 97) := by decide
    have hc : Char.ofNat (c.toNat - 65 + 65) = c := by
      rw [Nat.sub_add_cancel hcapital.1, Char.ofNat_toNat]
    have hn : c.toNat - 65 < 26 := by omega
    rw [← hc, hlower _ hn]
    exact h _ hn
  · rw [toLower_eq_self hcapital]

theorem SameLetters.map_eq (hf : ∀ c : Char, f c.toLower = f c) {w w' : List Char}
    (h : SameLetters w w') : w.map f = w'.map f := by
  have hlower : ∀ cs : List Char, cs.map f = (cs.map Char.toLower).map f := by
    intro cs
    rw [List.map_map]
    exact List.map_congr_left fun c _ => (hf c).symm
  rw [hlower w, h, ← hlower w']

end Caseless

theorem isBlank_toLower (c : Char) : isBlank c.toLower = isBlank c :=
  apply_toLower isBlank (by decide) c

theorem isDigit_toLower (c : Char) : isDigit c.toLower = isDigit c :=
  apply_toLower isDigit (by decide) c

theorem lowerChar_toLower (c : Char) : lowerChar c.toLower = lowerChar c :=
  apply_toLower lowerChar (by decide) c

theorem upperChar_toLower (c : Char) : upperChar c.toLower = upperChar c :=
  apply_toLower upperChar (by decide) c

theorem hexValue?_toLower (c : Char) : Bytes.hexValue? c.toLower = Bytes.hexValue? c :=
  apply_toLower Bytes.hexValue? (by decide) c

theorem toLower_of_isDigit {c : Char} (h : isDigit c) : c.toLower = c := by
  obtain ⟨-, hle⟩ := toNat_of_isDigit h
  exact toLower_eq_self (by omega)

namespace SameLetters

variable {w w' : List Char} (h : SameLetters w w')
include h

theorem symm : SameLetters w' w :=
  Eq.symm h

theorem length_eq : w.length = w'.length := by
  have hlength := congrArg List.length h
  rwa [List.length_map, List.length_map] at hlength

/-- What is said of all characters of a text without telling the cases apart. -/
theorem forall_mem {p : Char → Bool} (hp : ∀ c : Char, p c.toLower = p c) {b : Bool}
    (hw : ∀ c ∈ w, p c = b) : ∀ c ∈ w', p c = b := by
  have hmap : ∀ v ∈ w.map p, v = b := List.forall_mem_map.mpr hw
  rw [h.map_eq hp] at hmap
  exact List.forall_mem_map.mp hmap

/-- A character that is no letter stands in both texts or in neither. -/
theorem mem_iff {d : Char} (hd : d.isAlpha = false) : d ∈ w ↔ d ∈ w' := by
  have hletter : ∀ n < 26, (Char.ofNat (n + 97)).isAlpha ∧ (Char.ofNat (n + 65)).isAlpha := by
    decide
  have hne : ∀ c : Char, c.isAlpha = true → (c == d) = false := by
    intro c hc
    rw [beq_eq_false_iff_ne]
    rintro rfl
    rw [hd] at hc
    cases hc
  have hcaseless : ∀ c : Char, (c.toLower == d) = (c == d) :=
    apply_toLower (· == d) fun n hn => by
      rw [hne _ (hletter n hn).1, hne _ (hletter n hn).2]
  have hmem : ∀ cs : List Char, d ∈ cs ↔ true ∈ cs.map (· == d) := by simp
  rw [hmem w, hmem w', h.map_eq (f := (· == d)) hcaseless]

theorem isWord (hw : IsWord w) : IsWord w' := by
  refine ⟨?_, h.forall_mem isBlank_toLower hw.2⟩
  rintro rfl
  exact hw.1 (List.length_eq_zero_iff.mp h.length_eq)

theorem lower_eq : lower w = lower w' :=
  h.map_eq lowerChar_toLower

theorem upper_eq : upper w = upper w' := by
  rw [upper, upper, List.flatMap_def, List.flatMap_def, h.map_eq upperChar_toLower]

/-- Decimal digits have no other case. -/
theorem eq_of_digits (hw : ∀ c ∈ w, isDigit c) : w = w' := by
  have hself : ∀ cs : List Char, (∀ c ∈ cs, isDigit c) → cs.map Char.toLower = cs := by
    intro cs hcs
    have hcongr := List.map_congr_left (g := id) fun c hc => toLower_of_isDigit (hcs c hc)
    rwa [List.map_id] at hcongr
  rw [← hself w hw, h, hself w' (h.forall_mem isDigit_toLower hw)]

end SameLetters

end Text

open Text

/-! ### Push operands -/

theorem PushLiteral.of_sameLetters {a a' : List Char} {v : Operand} (ha : PushLiteral a v)
    (h : SameLetters a a') : PushLiteral a' v := by
  cases ha with
  | decimal hne hall =>
    obtain rfl := h.eq_of_digits hall
    exact .decimal hne hall
  | @hex x cs vs hx hvs =>
    obtain _ | ⟨zero, _ | ⟨x', cs'⟩⟩ := a'
    · exact absurd h.length_eq (by simp)
    · exact absurd h.length_eq (by simp)
    · obtain ⟨hzero, hx', hcs⟩ : SameLetters ['0'] [zero] ∧ SameLetters [x] [x'] ∧
          SameLetters cs cs' := by
        simpa [SameLetters] using h
      obtain rfl : '0' = zero := by simpa using (hzero.mem_iff rfl).mp List.mem_cons_self
      have hmarker : ∀ c ∈ [x'], (c == 'x' || c == 'X') = true := by
        refine hx'.forall_mem (apply_toLower (fun c => c == 'x' || c == 'X') (by decide)) ?_
        simpa using hx
      rw [hcs.length_eq]
      rw [hcs.map_eq hexValue?_toLower] at hvs
      exact .hex (by simpa using hmarker) hvs

/-! ### Faults of one kind -/

/-- The kind of a fault: its cause, without the text or the numbers that it carries. -/
def Fault.kind (fault : Fault) : Nat :=
  fault.ctorIdx

/-- A result of which only the kind is kept if it is a fault. -/
def Fault.byKind {α : Type} (r : Except Fault α) : Except Nat α :=
  r.mapError Fault.kind

theorem Fault.byKind_map {α β : Type} (f : α → β) (r : Except Fault α) :
    byKind (r.map f) = (byKind r).map f := by
  cases r <;> rfl

theorem Operand.parse_sameLetters {a a' : List Char} (h : SameLetters a a') :
    Fault.byKind (parse a) = Fault.byKind (parse a') := by
  by_cases hread : ∃ v, PushLiteral a v
  · obtain ⟨v, hv⟩ := hread
    rw [parse_eq_ok_iff.mpr hv, parse_eq_ok_iff.mpr (hv.of_sameLetters h)]
  · have hnone : ∀ v, ¬ PushLiteral a' v := fun v hv => hread ⟨v, hv.of_sameLetters h.symm⟩
    rw [parse_eq_error (not_exists.mp hread), parse_eq_error hnone]
    rfl

/-! ### Operations -/

theorem Family.ofWord?_sameLetters {w w' : List Char} (h : SameLetters w w') :
    ofWord? w = ofWord? w' := by
  rw [ofWord?, ofWord?, h.lower_eq]

theorem Opcode.ofWord?_sameLetters {w w' : List Char} (h : SameLetters w w') :
    ofWord? w = ofWord? w' := by
  rw [ofWord?, ofWord?, h.upper_eq]

namespace Operation

/-- An operation word may be written in either case, whether it names an operation or not. -/
theorem ofWords_word_sameLetters {w w' : List Char} (h : SameLetters w w')
    (arguments : List (List Char)) :
    Fault.byKind (ofWords (w :: arguments)) = Fault.byKind (ofWords (w' :: arguments)) := by
  simp only [ofWords, Family.ofWord?_sameLetters h, Opcode.ofWord?_sameLetters h]
  cases Family.ofWord? w' with
  | some family => rfl
  | none =>
    cases Opcode.ofWord? w' with
    | some o => cases arguments <;> rfl
    | none => rfl

/-- A push operand may be written in either case, whether it is a literal or not. -/
theorem ofWords_literal_sameLetters {w a a' : List Char} (hpush : Family.ofWord? w = some .push)
    (h : SameLetters a a') (more : List (List Char)) :
    Fault.byKind (ofWords (w :: a :: more)) = Fault.byKind (ofWords (w :: a' :: more)) := by
  simp only [ofWords, hpush]
  cases more with
  | nil => simp only [argument?, ofFamily, Fault.byKind_map, Operand.parse_sameLetters h]
  | cons extra more => rfl

end Operation

end BytecodeAssembler
