import BytecodeAssembler.Proofs.Literals
import BytecodeAssembler.Proofs.Words

/-!
# The grammar of a line

Which lines are read, as what, and which fault is found in the others:

* `Names w o` — a word names an operation, by its name or an older one;
* `Applied family argument r` — what a family makes of the argument behind its word;
* `OperationReads ws r` — what words are read as;
* `RestReads cs r` — what stands behind a label, if anything;
* `LineReads line r` — what a line is read as.

The relations go from the parts of a line to the line, and say of every line just one thing
(`parse_iff_lineReads`). A line without a statement is one whose label is no single word, and
nothing else makes one.
-/

namespace BytecodeAssembler

open Text

/-! ### The relations -/

/-- A word that names an operation in whatever letter case. -/
def Names (w : List Char) (o : Opcode) : Prop :=
  upper w = o.mnemonic.toList ∨
    o = .KECCAK256 ∧ (upper w = "SHA3".toList ∨ upper w = "KECCAK".toList)

/-- What a family makes of the argument behind its word. -/
inductive Applied : Family → Option (List Char) → Except Fault Operation → Prop
  | push {a : List Char} {v : Operand} : PushLiteral a v → Applied .push (some a) (.ok (.push v))
  | pushUnreadable {a : List Char} : (∀ v, ¬ PushLiteral a v) →
      Applied .push (some a) (.error (.invalidOperand (String.ofList a)))
  | dup {a : List Char} {n : UInt8} : IndexLiteral a n → Applied .dup (some a) (.ok (.dup n))
  | swap {a : List Char} {n : UInt8} : IndexLiteral a n → Applied .swap (some a) (.ok (.swap n))
  | indexUnreadable {family : Family} {a : List Char} : family = .dup ∨ family = .swap →
      (∀ n, ¬ IndexLiteral a n) →
      Applied family (some a) (.error (.unreadableIndex (String.ofList a)))
  | missing {family : Family} : family = .push ∨ family = .dup ∨ family = .swap →
      Applied family none (.error .missingArgument)
  | jump {target : Option (List Char)} :
      Applied .jump target (.ok (.jump (target.map String.ofList)))
  | jumpi {target : Option (List Char)} :
      Applied .jumpi target (.ok (.jumpi (target.map String.ofList)))

/-- What words are read as: the first word names a family, or else an operation, or else nothing. -/
inductive OperationReads : List (List Char) → Except Fault Operation → Prop
  | family {w : List Char} {argument : Option (List Char)} {family : Family}
      {r : Except Fault Operation} : lower w = family.word.toList → Applied family argument r →
      OperationReads (w :: argument.toList) r
  | familyCrowded {w a extra : List Char} {more : List (List Char)} {family : Family} :
      lower w = family.word.toList →
      OperationReads (w :: a :: extra :: more) (.error (.tooManyArguments (String.ofList extra)))
  | op {w : List Char} {o : Opcode} : (∀ family : Family, lower w ≠ family.word.toList) →
      Names w o → OperationReads [w] (.ok (.op o))
  | opCrowded {w extra : List Char} {more : List (List Char)} {o : Opcode} :
      (∀ family : Family, lower w ≠ family.word.toList) → Names w o →
      OperationReads (w :: extra :: more) (.error (.tooManyArguments (String.ofList extra)))
  | unknown {w : List Char} {arguments : List (List Char)} :
      (∀ family : Family, lower w ≠ family.word.toList) → (∀ o, ¬ Names w o) →
      OperationReads (w :: arguments) (.error (.unknownOperation (String.ofList w)))

/-- What stands behind a label: nothing, or words that are read. -/
inductive RestReads : List Char → Except Fault (Option Operation) → Prop
  | blank {cs : List Char} : Blanks cs → RestReads cs (.ok none)
  | operation {cs : List Char} {ws : List (List Char)} {r : Except Fault Operation} :
      Words cs ws → OperationReads ws r → RestReads cs (r.map some)

/-- What a line is read as. The comment is the text behind the first `;` as it stands; a `:` in
front of it ends a label, which is one word. -/
inductive LineReads : List Char → Except Fault (Statement × Option String) → Prop
  | unlabelled {line body : List Char} {comment : Option (List Char)}
      {r : Except Fault (Option Operation)} : Cut ';' line body comment → ':' ∉ body →
      RestReads body r → LineReads line (r.map fun o => (⟨none, o⟩, comment.map String.ofList))
  | labelled {line body head tail name : List Char} {comment : Option (List Char)}
      {r : Except Fault (Option Operation)} : Cut ';' line body comment →
      Cut ':' body head (some tail) → Encloses head name → RestReads tail r →
      LineReads line
        (r.map fun o => (⟨some (String.ofList name), o⟩, comment.map String.ofList))
  | malformed {line body head tail : List Char} {comment : Option (List Char)} :
      Cut ';' line body comment → Cut ':' body head (some tail) → (∀ name, ¬ Encloses head name) →
      LineReads line (.error .malformedLine)

/-! ### Names -/

theorem ofList_eq_iff {cs : List Char} {s : String} : String.ofList cs = s ↔ cs = s.toList := by
  rw [← String.toList_inj, String.toList_ofList]

namespace Family

theorem ofWord?_eq_some_iff {w : List Char} {family : Family} :
    ofWord? w = some family ↔ lower w = family.word.toList := by
  constructor
  · intro h
    have hfound := List.find?_some h
    exact (by simpa using hfound : family.word.toList = lower w).symm
  · intro h
    rw [ofWord?, h]
    cases family <;> decide

theorem ofWord?_eq_none_iff {w : List Char} :
    ofWord? w = none ↔ ∀ family : Family, lower w ≠ family.word.toList := by
  rw [← not_iff_not, ← Ne, Option.ne_none_iff_exists']
  simp only [ofWord?_eq_some_iff, not_forall, not_not]

end Family

namespace Opcode

theorem ofMnemonic?_eq_some_iff {name : String} {o : Opcode} :
    ofMnemonic? name = some o ↔ o.mnemonic = name := by
  constructor
  · intro h
    have hfound := List.find?_some h
    simpa using hfound
  · rintro rfl
    cases o <;> decide

/-- The older names are names of no other operation. -/
theorem mnemonic_ne_older (o : Opcode) : o.mnemonic ≠ "SHA3" ∧ o.mnemonic ≠ "KECCAK" := by
  cases o <;> decide

theorem ofWord?_eq_some_iff {w : List Char} {o : Opcode} : ofWord? w = some o ↔ Names w o := by
  obtain ⟨hsha, hkeccak⟩ := o.mnemonic_ne_older
  rw [ofWord?, ofName?, Names]
  split
  · next holder =>
    rw [ofList_eq_iff, ofList_eq_iff] at holder
    constructor
    · intro h
      exact Or.inr ⟨(Option.some.inj h).symm, holder⟩
    · rintro (h | ⟨rfl, -⟩)
      · rw [h, String.toList_inj, String.toList_inj] at holder
        exact absurd holder (not_or.mpr ⟨hsha, hkeccak⟩)
      · rfl
  · next holder =>
    rw [ofList_eq_iff, ofList_eq_iff] at holder
    rw [ofMnemonic?_eq_some_iff, eq_comm, ofList_eq_iff]
    simp only [holder, and_false, or_false]

end Opcode

/-! ### Operations -/

namespace Operation

theorem ofFamily_of_applied {family : Family} {argument : Option (List Char)}
    {r : Except Fault Operation} (h : Applied family argument r) :
    ofFamily family argument = r := by
  cases h with
  | push hliteral => rw [ofFamily, Operand.parse_eq_ok_iff.mpr hliteral]; rfl
  | pushUnreadable hnone => rw [ofFamily, Operand.parse_eq_error hnone]; rfl
  | dup hliteral => rw [ofFamily, readIndex_eq_ok_iff.mpr hliteral]; rfl
  | swap hliteral => rw [ofFamily, readIndex_eq_ok_iff.mpr hliteral]; rfl
  | indexUnreadable hfamily hnone =>
    rcases hfamily with rfl | rfl
    · rw [ofFamily, readIndex_eq_error hnone]; rfl
    · rw [ofFamily, readIndex_eq_error hnone]; rfl
  | missing hfamily => rcases hfamily with rfl | rfl | rfl <;> rfl
  | jump => cases argument <;> rfl
  | jumpi => cases argument <;> rfl

theorem exists_applied_index {family : Family} (hfamily : family = .dup ∨ family = .swap)
    (argument : Option (List Char)) : ∃ r, Applied family argument r := by
  cases argument with
  | none => exact ⟨_, .missing (Or.inr hfamily)⟩
  | some a =>
    by_cases h : ∃ n, IndexLiteral a n
    · obtain ⟨n, hn⟩ := h
      rcases hfamily with rfl | rfl
      · exact ⟨_, .dup hn⟩
      · exact ⟨_, .swap hn⟩
    · exact ⟨_, .indexUnreadable hfamily (not_exists.mp h)⟩

theorem exists_applied (family : Family) (argument : Option (List Char)) :
    ∃ r, Applied family argument r := by
  cases family with
  | push =>
    cases argument with
    | none => exact ⟨_, .missing (Or.inl rfl)⟩
    | some a =>
      by_cases h : ∃ v, PushLiteral a v
      · obtain ⟨v, hv⟩ := h
        exact ⟨_, .push hv⟩
      · exact ⟨_, .pushUnreadable (not_exists.mp h)⟩
  | dup => exact exists_applied_index (Or.inl rfl) argument
  | swap => exact exists_applied_index (Or.inr rfl) argument
  | jump => exact ⟨_, .jump⟩
  | jumpi => exact ⟨_, .jumpi⟩

theorem ofWords_of_reads {ws : List (List Char)} {r : Except Fault Operation}
    (h : OperationReads ws r) : ofWords ws = r := by
  cases h with
  | @family w argument family r hword happlied =>
    have hargument : argument? argument.toList = .ok argument := by cases argument <;> rfl
    simp only [ofWords, Family.ofWord?_eq_some_iff.mpr hword, hargument,
      ofFamily_of_applied happlied]
  | familyCrowded hword => simp only [ofWords, Family.ofWord?_eq_some_iff.mpr hword, argument?]
  | op hword hname =>
    simp only [ofWords, Family.ofWord?_eq_none_iff.mpr hword, Opcode.ofWord?_eq_some_iff.mpr hname]
  | opCrowded hword hname =>
    simp only [ofWords, Family.ofWord?_eq_none_iff.mpr hword, Opcode.ofWord?_eq_some_iff.mpr hname]
  | @unknown w arguments hword hname =>
    have hnone : Opcode.ofWord? w = none := by
      rw [Option.eq_none_iff_forall_ne_some]
      intro o ho
      exact hname o (Opcode.ofWord?_eq_some_iff.mp ho)
    simp only [ofWords, Family.ofWord?_eq_none_iff.mpr hword, hnone]

theorem exists_operationReads (w : List Char) (arguments : List (List Char)) :
    ∃ r, OperationReads (w :: arguments) r := by
  by_cases hfamily : ∃ family : Family, lower w = family.word.toList
  · obtain ⟨family, hword⟩ := hfamily
    rcases arguments with _ | ⟨a, _ | ⟨extra, more⟩⟩
    · obtain ⟨r, hr⟩ := exists_applied family none
      exact ⟨r, .family hword hr⟩
    · obtain ⟨r, hr⟩ := exists_applied family (some a)
      exact ⟨r, .family hword hr⟩
    · exact ⟨_, .familyCrowded hword⟩
  · have hword := not_exists.mp hfamily
    by_cases hname : ∃ o, Names w o
    · obtain ⟨o, ho⟩ := hname
      cases arguments with
      | nil => exact ⟨_, .op hword ho⟩
      | cons extra more => exact ⟨_, .opCrowded hword ho⟩
    · exact ⟨_, .unknown hword (not_exists.mp hname)⟩

end Operation

/-! ### Lines -/

namespace Statement

theorem readOperation_of_restReads {cs : List Char} {r : Except Fault (Option Operation)}
    (h : RestReads cs r) : readOperation cs = r := by
  rw [readOperation, words_trim]
  cases h with
  | blank hblanks => exact if_pos (trim_eq_nil_iff.mpr hblanks)
  | @operation ws r hwords hreads =>
    have hne : ¬ trim cs = [] := by
      intro htrim
      have hnil := (Words.nil (trim_eq_nil_iff.mp htrim)).words_eq
      rw [hwords.words_eq] at hnil
      cases hreads <;> cases hnil
    rw [hwords.words_eq, Operation.ofWords_of_reads hreads]
    exact if_neg hne

theorem exists_restReads (cs : List Char) : ∃ r, RestReads cs r := by
  obtain ⟨ws, hwords⟩ := exists_words cs
  cases ws with
  | nil =>
    refine ⟨_, .blank ?_⟩
    cases hwords with
    | nil hgap => exact hgap
  | cons w arguments =>
    obtain ⟨r, hr⟩ := Operation.exists_operationReads w arguments
    exact ⟨_, .operation hwords hr⟩

theorem readLabel_of_encloses {head name : List Char} (h : Encloses head name) :
    readLabel head = .ok (String.ofList name) := by
  obtain ⟨⟨hne, hall⟩, htrim⟩ := encloses_iff.mp h
  have hany : name.any isBlank = false := by
    rw [List.any_eq_false]
    intro c hc
    simp [hall c hc]
  rw [readLabel, htrim]
  simp [hne, hany]

theorem readLabel_of_not_encloses {head : List Char} (h : ∀ name, ¬ Encloses head name) :
    readLabel head = .error .malformedLine := by
  have hword : ¬ IsWord (trim head) := fun hword => h _ (encloses_iff.mpr ⟨hword, rfl⟩)
  have hbad : trim head = [] ∨ (trim head).any isBlank = true := by
    by_contra hgood
    obtain ⟨hne, hany⟩ := not_or.mp hgood
    refine hword ⟨hne, fun c hc => ?_⟩
    have := List.any_eq_false.mp (Bool.not_eq_true _ ▸ hany) c hc
    simpa using this
  rw [readLabel]
  exact if_pos hbad

theorem parse_of_lineReads {line : String} {r : Except Fault (Statement × Option String)}
    (h : LineReads line.toList r) : parse line = r := by
  rw [parse]
  cases h with
  | @unlabelled body comment r hcut hcolon hrest =>
    rw [cut_of_cut hcut]
    simp only [ofBody, cut_of_not_mem hcolon, readOperation_of_restReads hrest]
    cases r <;> rfl
  | @labelled body head tail name comment r hcut hcolon hname hrest =>
    rw [cut_of_cut hcut]
    simp only [ofBody, cut_of_cut hcolon, readLabel_of_encloses hname,
      readOperation_of_restReads hrest]
    cases r <;> rfl
  | @malformed body head tail comment hcut hcolon hname =>
    rw [cut_of_cut hcut]
    simp only [ofBody, cut_of_cut hcolon, readLabel_of_not_encloses hname]
    rfl

theorem exists_lineReads (line : List Char) : ∃ r, LineReads line r := by
  obtain ⟨body, comment, hcut⟩ := exists_cut ';' line
  obtain ⟨head, tail?, hcolon⟩ := exists_cut ':' body
  cases tail? with
  | none =>
    obtain ⟨r, hr⟩ := exists_restReads body
    refine ⟨_, .unlabelled hcut ?_ hr⟩
    cases hcolon with
    | whole hnot => exact hnot
  | some tail =>
    by_cases hname : ∃ name, Encloses head name
    · obtain ⟨name, hname⟩ := hname
      obtain ⟨r, hr⟩ := exists_restReads tail
      exact ⟨_, .labelled hcut hcolon hname hr⟩
    · exact ⟨_, .malformed hcut hcolon (not_exists.mp hname)⟩

theorem parse_iff_lineReads {line : String} {r : Except Fault (Statement × Option String)} :
    parse line = r ↔ LineReads line.toList r := by
  constructor
  · rintro rfl
    obtain ⟨r, hr⟩ := exists_lineReads line.toList
    rwa [parse_of_lineReads hr]
  · exact parse_of_lineReads

/-! ### Lines that are no statements -/

theorem operationReads_ne_malformed {ws : List (List Char)} :
    ¬ OperationReads ws (.error .malformedLine) := by
  intro h
  cases h with
  | family hword happlied => cases happlied

theorem restReads_ne_malformed {cs : List Char} : ¬ RestReads cs (.error .malformedLine) := by
  intro h
  generalize hr : (.error .malformedLine : Except Fault (Option Operation)) = r at h
  cases h with
  | blank => cases hr
  | @operation ws r hwords hreads =>
    cases r with
    | ok o => cases hr
    | error fault =>
      obtain rfl := Except.error.inj hr
      exact operationReads_ne_malformed hreads

/-- A line is no statement only if what stands before its first `:` is not one word. -/
theorem lineReads_malformed_iff {line : List Char} :
    LineReads line (.error .malformedLine) ↔ ∃ body comment head tail,
      Cut ';' line body comment ∧ Cut ':' body head (some tail) ∧ ¬ IsWord (trim head) := by
  constructor
  · intro h
    generalize hr : (.error .malformedLine : Except Fault (Statement × Option String)) = r at h
    cases h with
    | @unlabelled body comment r hcut hcolon hrest =>
      cases r with
      | ok o => cases hr
      | error fault =>
        obtain rfl := Except.error.inj hr
        exact absurd hrest restReads_ne_malformed
    | @labelled body head tail name comment r hcut hcolon hname hrest =>
      cases r with
      | ok o => cases hr
      | error fault =>
        obtain rfl := Except.error.inj hr
        exact absurd hrest restReads_ne_malformed
    | @malformed body head tail comment hcut hcolon hname =>
      refine ⟨body, comment, head, tail, hcut, hcolon, fun hword => ?_⟩
      exact hname _ (encloses_iff.mpr ⟨hword, rfl⟩)
  · rintro ⟨body, comment, head, tail, hcut, hcolon, hword⟩
    refine .malformed hcut hcolon fun name hname => hword ?_
    obtain ⟨hname, rfl⟩ := encloses_iff.mp hname
    exact hname

theorem cut_unique {separator : Char} {cs before before' : List Char}
    {after after' : Option (List Char)} (h : Cut separator cs before after)
    (h' : Cut separator cs before' after') : before = before' ∧ after = after' :=
  Prod.mk.inj ((cut_of_cut h).symm.trans (cut_of_cut h'))

/-- A line that is read has a label exactly if a `:` stands before its comment. -/
theorem label_iff_of_lineReads {line body : List Char} {comment : Option (List Char)}
    {st : Statement} {text : Option String} (h : LineReads line (.ok (st, text)))
    (hbody : Cut ';' line body comment) : st.label.isSome ↔ ':' ∈ trim body := by
  rw [mem_trim_iff (by decide)]
  generalize hr : (.ok (st, text) : Except Fault (Statement × Option String)) = r at h
  cases h with
  | @unlabelled body' comment' r hcut hcolon hrest =>
    obtain ⟨rfl, -⟩ := cut_unique hcut hbody
    cases r with
    | error fault => cases hr
    | ok o =>
      obtain ⟨rfl, -⟩ := Prod.mk.inj (Except.ok.inj hr)
      simp [hcolon]
  | @labelled body' head tail name comment' r hcut hcolon hname hrest =>
    obtain ⟨rfl, -⟩ := cut_unique hcut hbody
    cases r with
    | error fault => cases hr
    | ok o =>
      obtain ⟨rfl, -⟩ := Prod.mk.inj (Except.ok.inj hr)
      cases hcolon with
      | split hnot => simp
  | malformed => cases hr

/-- **Reading a line accepts exactly the grammar and tells why a line is refused.** A line is read
as what the grammar says of it. A line is no statement exactly if the text before its first `:`,
trimmed, is not one word, and a line that is read has a label exactly if there is such a `:`. -/
theorem parse_grammar (line : String) :
    (∀ r, parse line = r ↔ LineReads line.toList r) ∧
      (parse line = .error .malformedLine ↔ ∃ body comment head tail,
        Cut ';' line.toList body comment ∧ Cut ':' body head (some tail) ∧ ¬ IsWord (trim head)) ∧
      ∀ body comment, Cut ';' line.toList body comment → ∀ st text, parse line = .ok (st, text) →
        (st.label.isSome ↔ ':' ∈ trim body) := by
  refine ⟨fun r => parse_iff_lineReads, ?_, ?_⟩
  · rw [parse_iff_lineReads]
    exact lineReads_malformed_iff
  · intro body comment hbody st text hparse
    exact label_iff_of_lineReads (parse_iff_lineReads.mp hparse) hbody

/-- A label, a push in mixed letter case with an odd number of digits, and separators in the
comment. -/
theorem parse_grammar_labelled_push :
    Cut ';' "top: PuSh 0X0fF ; a:b;".toList "top: PuSh 0X0fF ".toList (some " a:b;".toList) ∧
      parse "top: PuSh 0X0fF ; a:b;" =
        .ok (⟨some "top", some (.push ⟨[0x00, 0xFF]⟩)⟩, some " a:b;") ∧
      ':' ∈ trim "top: PuSh 0X0fF ".toList := by
  have hcut : Cut ';' "top: PuSh 0X0fF ; a:b;".toList "top: PuSh 0X0fF ".toList
      (some " a:b;".toList) := cut_eq_iff.mp (by decide)
  have hparse : parse "top: PuSh 0X0fF ; a:b;" =
      .ok (⟨some "top", some (.push ⟨[0x00, 0xFF]⟩)⟩, some " a:b;") := by decide
  obtain ⟨-, -, hlabel⟩ := parse_grammar "top: PuSh 0X0fF ; a:b;"
  exact ⟨hcut, hparse, (hlabel _ _ hcut _ _ hparse).mp rfl⟩

end Statement

end BytecodeAssembler
