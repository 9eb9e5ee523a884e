import BytecodeAssembler.Session

/-!
# The steps that a session took

`attempt` goes on behind a step that is refused. The steps that were not refused are the session's
journal:

* `journal` — these steps, each with the offset at which its bytes begin;
* `taken` — these steps alone.

A run over two lists of steps is the run over the first and then the run over the second
(`attempt_append`; `run_append_of_taken` and `run_append_of_refused` for `run`, which ends at a
refused step), and what is said of a step depends only on the steps before it (`getElem?_attempt`).
-/

namespace BytecodeAssembler

namespace Session

/-- The steps that are not refused, each with the offset at which its bytes begin. -/
def journal (s : Session) : List Step → List (Nat × Step)
  | [] => []
  | a :: as =>
    match s.step a with
    | (t, none) => (s.size, a) :: t.journal as
    | (t, some _) => t.journal as

/-- The steps that are not refused. -/
def taken (s : Session) (as : List Step) : List Step :=
  (s.journal as).map Prod.snd

variable (s : Session)

theorem attempt_cons (a : Step) (as : List Step) :
    s.attempt (a :: as) =
      (((s.step a).1.attempt as).1, (s.step a).2 :: ((s.step a).1.attempt as).2) := rfl

theorem attempt_append (as bs : List Step) :
    s.attempt (as ++ bs) = (((s.attempt as).1.attempt bs).1,
      (s.attempt as).2 ++ ((s.attempt as).1.attempt bs).2) := by
  induction as generalizing s with
  | nil => rfl
  | cons a as ih => simp only [List.cons_append, attempt_cons, ih]

theorem length_attempt (as : List Step) : (s.attempt as).2.length = as.length := by
  induction as generalizing s with
  | nil => rfl
  | cons a as ih => simp only [attempt_cons, List.length_cons, ih]

/-- What is said of a step is what the session that took the steps before it says. -/
theorem getElem?_attempt {as : List Step} {i : Nat} (h : i < as.length) :
    (s.attempt as).2[i]? = some ((s.attempt (as.take i)).1.step as[i]).2 := by
  -- the run is cut in front of the step, which is then the first of the second part
  have hlen : (s.attempt (as.take i)).2.length = i := by
    rw [length_attempt, List.length_take, Nat.min_eq_left (Nat.le_of_lt h)]
  have hsplit : as = as.take i ++ as[i] :: as.drop (i + 1) := by
    rw [← List.drop_eq_getElem_cons h, List.take_append_drop]
  have hrun := congrArg s.attempt hsplit
  rw [hrun, attempt_append, List.getElem?_append_right (Nat.le_of_eq hlen), hlen, Nat.sub_self,
    attempt_cons]
  rfl

theorem journal_cons_of_taken {a : Step} (h : (s.step a).2 = none) (as : List Step) :
    s.journal (a :: as) = (s.size, a) :: (s.step a).1.journal as := by
  rw [journal]
  split
  · next t ht => rw [ht]
  · next t fault ht => simp [ht] at h

theorem journal_cons_of_refused {a : Step} {fault : Fault} (h : (s.step a).2 = some fault)
    (as : List Step) : s.journal (a :: as) = (s.step a).1.journal as := by
  rw [journal]
  split
  · next t ht => simp [ht] at h
  · next t fault ht => rw [ht]

theorem taken_cons_of_taken {a : Step} (h : (s.step a).2 = none) (as : List Step) :
    s.taken (a :: as) = a :: (s.step a).1.taken as := by
  rw [taken, journal_cons_of_taken s h, List.map_cons, taken]

theorem taken_cons_of_refused {a : Step} {fault : Fault} (h : (s.step a).2 = some fault)
    (as : List Step) : s.taken (a :: as) = (s.step a).1.taken as := by
  rw [taken, journal_cons_of_refused s h, taken]

/-- The steps that are not refused are those of which no fault is said. -/
theorem taken_eq_filter (as : List Step) :
    s.taken as = ((as.zip (s.attempt as).2).filter fun said => said.2.isNone).map Prod.fst := by
  induction as generalizing s with
  | nil => rfl
  | cons a as ih =>
    cases h : (s.step a).2 with
    | none => simp [taken_cons_of_taken s h, attempt_cons, h, ih]
    | some fault => simp [taken_cons_of_refused s h, attempt_cons, h, ih]

/-! ### Runs -/

variable {s}

theorem run_append_of_taken {t : Session} {as : List Step} (h : s.run as = (t, none))
    (bs : List Step) : s.run (as ++ bs) = t.run bs := by
  induction as generalizing s with
  | nil =>
    obtain rfl : s = t := congrArg Prod.fst h
    rfl
  | cons a as ih =>
    rw [run] at h
    rw [List.cons_append, run]
    split
    · next u hstep =>
      rw [hstep] at h
      exact ih h
    · next u fault hstep =>
      rw [hstep] at h
      cases congrArg Prod.snd h

theorem run_append_of_refused {t : Session} {as : List Step} {fault : Fault}
    (h : s.run as = (t, some fault)) (bs : List Step) : s.run (as ++ bs) = (t, some fault) := by
  induction as generalizing s with
  | nil => cases congrArg Prod.snd h
  | cons a as ih =>
    rw [run] at h
    rw [List.cons_append, run]
    split
    · next u hstep =>
      rw [hstep] at h
      exact ih h
    · next u fault' hstep =>
      rw [hstep] at h
      exact h

end Session

end BytecodeAssembler
