import HiddenText.Proofs.Scan.Outcome

/-!
# Scans by any schedule

`Scan.run` lets its pool finish each path before it starts the next.  Here the pool makes whatever
moves it likes, as many at a time as there are workers, and the caller takes the results in the
order of the paths: it waits for a path that is not done, and stops at the first failure
(`Pool.collect`), also when later paths are still being scanned or will never be.

Main statement: `outcome_of_schedule`.  What the caller gets does not depend on the moves or on the
number of workers, and when it gets a report, each distinct path was scanned once.
-/

namespace HiddenText

namespace Pool

variable {α ε β : Type}

/-- What a caller gets who takes the results in order; `none` while it waits. -/
def collect : Pool α (Logged (Except ε β)) → Option (Except ε (List β))
  | [] => some (.ok [])
  | .done _ ⟨_, .error e⟩ :: _ => some (.error e)
  | .done _ ⟨_, .ok b⟩ :: rest => (collect rest).map fun result => result.map (b :: ·)
  | _ :: _ => none

/-- What is collected are the results of the tasks in turn. -/
theorem collect_eq_inTurn {work : α → Logged (Except ε β)} {pool : Pool α (Logged (Except ε β))}
    (hpool : ∀ slot ∈ pool, ∀ r, slot.result? = some r → r = work slot.task) :
    ∀ result, collect pool = some result →
      result = (inTurn ((pool.map Slot.task).map work)).result := by
  induction pool with
  | nil =>
    intro result h
    exact (Option.some.inj h).symm
  | cons slot pool ih =>
    intro result h
    have hrest := ih fun s hs => hpool s (List.mem_cons_of_mem _ hs)
    cases slot with
    | waiting t => cases h
    | running t => cases h
    | done t r =>
      have hr : r = work t := hpool _ List.mem_cons_self r rfl
      obtain ⟨log, e | b⟩ := r
      · rw [List.map_cons, List.map_cons, Slot.task, ← hr]
        exact (Option.some.inj h).symm
      · rw [collect, Option.map_eq_some_iff] at h
        obtain ⟨result', h', rfl⟩ := h
        rw [List.map_cons, List.map_cons, Slot.task, ← hr, hrest result' h', inTurn]

theorem isSome_collect {pool : Pool α (Logged (Except ε β))} (h : pool.isComplete) :
    (collect pool).isSome := by
  induction pool with
  | nil => rfl
  | cons slot pool ih =>
    rw [isComplete, List.all_cons, Bool.and_eq_true] at h
    cases slot with
    | waiting t => cases h.1
    | running t => cases h.1
    | done t r =>
      obtain ⟨log, e | b⟩ := r
      · rfl
      · rw [collect, Option.isSome_map]
        exact ih h.2

/-- A caller who gets all results has waited for every task. -/
theorem isComplete_of_collect {pool : Pool α (Logged (Except ε β))} :
    ∀ {bs : List β}, collect pool = some (.ok bs) → pool.isComplete := by
  induction pool with
  | nil => intro bs _; rfl
  | cons slot pool ih =>
    intro bs h
    cases slot with
    | waiting t => cases h
    | running t => cases h
    | done t r =>
      obtain ⟨log, e | b⟩ := r
      · cases Option.some.inj h
      · rw [collect, Option.map_eq_some_iff] at h
        obtain ⟨result, h', hmap⟩ := h
        cases result with
        | error e => cases hmap
        | ok bs' =>
          rw [isComplete, List.all_cons, Bool.and_eq_true]
          exact ⟨rfl, ih h'⟩

end Pool

namespace Scan

variable {ε : Type}

/-- What the caller of a scan gets whose pool makes the given moves. -/
def outcomeBy (workers : Int) (moves : List Move) (scan : Scanner ε) (paths : List Text) :
    Option (Except ε Report) :=
  let paths := distinct paths
  let results :=
    if inParallel workers paths then
      (Pool.run workers scan (Pool.ofTasks paths) moves).collect
    else some (sequential scan paths).result
  results.map fun result => result.map (report paths)

/-- The paths for which the scanner is called, in the order of the calls. -/
def callsBy (workers : Int) (moves : List Move) (scan : Scanner ε) (paths : List Text) :
    List Text :=
  let paths := distinct paths
  if inParallel workers paths then Pool.calls workers scan (Pool.ofTasks paths) moves
  else begun scan paths

theorem begun_eq_self {scan : Scanner ε} {paths : List Text} {results : List (List Finding)}
    (h : (inTurn (paths.map scan)).result = .ok results) : begun scan paths = paths := by
  have hnone : ∀ path ∈ paths, failure? scan path = none := by
    rw [inTurn_map_result] at h
    rw [← List.findSome?_eq_none_iff]
    cases hf : paths.findSome? (failure? scan) with
    | none => rfl
    | some e => rw [hf] at h; cases h
  clear h
  induction paths with
  | nil => rfl
  | cons path paths ih =>
    have hpath := hnone path List.mem_cons_self
    rw [failure?] at hpath
    rw [begun]
    cases hscan : (scan path).result with
    | ok found => exact congrArg (path :: ·) (ih fun p hp => hnone p (List.mem_cons_of_mem _ hp))
    | error e => rw [hscan] at hpath; cases hpath

theorem inv_run (workers : Int) (moves : List Move) (scan : Scanner ε) (paths : List Text) :
    Pool.Inv scan paths (Pool.calls workers scan (Pool.ofTasks paths) moves)
      (Pool.run workers scan (Pool.ofTasks paths) moves) :=
  (Pool.inv_ofTasks scan paths).run workers moves

/-- By any moves the caller gets the outcome of a scan one by one, if it gets one. -/
theorem outcomeBy_eq {workers : Int} {moves : List Move} {scan : Scanner ε} {paths : List Text}
    {outcome : Except ε Report} (h : outcomeBy workers moves scan paths = some outcome)
    (workers' : Int) : outcome = (run workers' scan paths).result := by
  have hmap : outcome =
      (inTurn ((distinct paths).map scan)).result.map (report (distinct paths)) := by
    rw [outcomeBy, Option.map_eq_some_iff] at h
    obtain ⟨result, hresult, rfl⟩ := h
    split at hresult
    · have hinv := inv_run workers moves scan (distinct paths)
      have heq := Pool.collect_eq_inTurn hinv.result_eq result hresult
      rw [heq, hinv.tasks_eq]
    · rw [← Option.some.inj hresult, sequential]
  rw [hmap, inTurn_map_result, findSome?_distinct, run_result]
  cases paths.findSome? (failure? scan) <;> rfl

/-- A caller who gets a report had every distinct path scanned, one for one. -/
theorem callsBy_eq {workers : Int} {moves : List Move} {scan : Scanner ε} {paths : List Text}
    {r : Report} (h : outcomeBy workers moves scan paths = some (.ok r)) :
    callsBy workers moves scan paths = distinct paths := by
  rw [outcomeBy, Option.map_eq_some_iff] at h
  obtain ⟨result, hresult, hok⟩ := h
  cases result with
  | error e => cases hok
  | ok results =>
    rw [callsBy]
    split at hresult
    · next hp =>
      have hcomplete := Pool.isComplete_of_collect hresult
      rw [if_pos hp, (inv_run workers moves scan (distinct paths)).called_eq_tasks hcomplete]
    · next hp => rw [if_neg hp, begun_eq_self (Option.some.inj hresult)]

theorem isSome_outcomeBy {workers : Int} {moves : List Move} {scan : Scanner ε} {paths : List Text}
    (h : (Pool.run workers scan (Pool.ofTasks (distinct paths)) moves).isComplete) :
    (outcomeBy workers moves scan paths).isSome := by
  rw [outcomeBy, Option.isSome_map]
  split
  · exact Pool.isSome_collect h
  · rfl

/-- **Scans do not depend on the schedule.**  Whatever moves the pool makes, the caller gets the
outcome of the scan with any other number of workers, if it gets one: a report, after one call of
the scanner for each distinct path, or the failure of the first path that has one.  It gets one when
the pool has done every task, as the moves of `oneByOne` make it do. -/
theorem outcome_of_schedule (scan : Scanner ε) (paths : List Text) (workers : Int)
    (moves : List Move) :
    (∀ outcome, outcomeBy workers moves scan paths = some outcome →
      (∀ workers', outcome = (run workers' scan paths).result) ∧
      (∀ e, outcome = .error e ↔ ∃ before path after, paths = before ++ path :: after ∧
        (∀ p ∈ before, (scan p).result.isOk) ∧ (scan path).result = .error e) ∧
      (outcome.isOk → (callsBy workers moves scan paths).Nodup ∧
        ∀ path, path ∈ callsBy workers moves scan paths ↔ path ∈ paths)) ∧
    ((Pool.run workers scan (Pool.ofTasks (distinct paths)) moves).isComplete →
      (outcomeBy workers moves scan paths).isSome) ∧
    (outcomeBy workers (Pool.oneByOne (distinct paths).length) scan paths).isSome := by
  refine ⟨?_, isSome_outcomeBy, ?_⟩
  · intro outcome h
    refine ⟨outcomeBy_eq h, ?_, ?_⟩
    · intro e
      rw [outcomeBy_eq h workers]
      exact run_result_eq_error_iff
    · intro hok
      cases outcome with
      | error e => cases hok
      | ok r =>
        rw [callsBy_eq h]
        exact ⟨nodup_distinct paths, fun path => mem_distinct⟩
  · by_cases hp : inParallel workers (distinct paths)
    · have hw := hp
      rw [inParallel, Bool.and_eq_true, decide_eq_true_eq] at hw
      refine isSome_outcomeBy ?_
      rw [Pool.run_oneByOne (by omega), Pool.isComplete, List.all_map]
      exact List.all_eq_true.mpr fun path _ => rfl
    · rw [outcomeBy, Option.isSome_map, if_neg hp]
      rfl

/-- Fails for the paths `b` and `c`, and finds an override behind every other one. -/
def failsLater : Scanner Nat := fun path =>
  if path = lit "b" then ⟨[], .error 1⟩ else if path = lit "c" then ⟨[], .error 2⟩
  else ⟨[], .ok (Finding.all [.ofNat 0x202E])⟩

/-- The third path fails before the second one, whose failure comes out all the same.  Two paths that
do not fail make the same report in whatever order their scans end. -/
theorem outcome_of_schedule_failsLater :
    outcomeBy 2 [.start, .start, .finish 0, .start, .finish 2, .finish 1] failsLater
        [lit "a", lit "b", lit "a", lit "c"] = some (.error 1) ∧
      (run 7 failsLater [lit "a", lit "b", lit "a", lit "c"]).result = .error 1 ∧
      ∃ report, outcomeBy 2 [.start, .start, .finish 1, .finish 0] failsLater
          [lit "d", lit "a", lit "d"] = some (.ok report) ∧
        report.paths = [lit "d", lit "a"] ∧
        (run 7 failsLater [lit "d", lit "a", lit "d"]).result = .ok report ∧
        (callsBy 2 [.start, .start, .finish 1, .finish 0] failsLater
          [lit "d", lit "a", lit "d"]).Nodup := by
  have h : outcomeBy 2 [.start, .start, .finish 0, .start, .finish 2, .finish 1] failsLater
      [lit "a", lit "b", lit "a", lit "c"] = some (.error 1) := rfl
  have hrun := ((outcome_of_schedule failsLater _ _ _).1 _ h).1 7
  obtain ⟨report, hok, hpaths⟩ : ∃ report,
      outcomeBy 2 [.start, .start, .finish 1, .finish 0] failsLater
        [lit "d", lit "a", lit "d"] = some (.ok report) ∧ report.paths = [lit "d", lit "a"] :=
    ⟨_, rfl, rfl⟩
  obtain ⟨hrun', -, hcalls⟩ := (outcome_of_schedule failsLater _ _ _).1 _ hok
  exact ⟨h, hrun.symm, report, hok, hpaths, (hrun' 7).symm, (hcalls rfl).1⟩

end Scan

end HiddenText
