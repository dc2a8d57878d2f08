import HiddenText.Proofs.Scan.Pool
import HiddenText.Scan.Run

/-!
# The outcome of a scan

`run_result` gives the outcome of a scan without order or workers: it is the failure of the first
listed path that has one (`run_result_eq_error_iff`), or else the report on what every distinct path
contributes.  A pool and a scan one by one agree because both put the results of the paths `inTurn`.
-/

namespace HiddenText.Scan

variable {ε : Type}

/-! ## Distinct paths -/

theorem mem_distinct {path : Text} {paths : List Text} : path ∈ distinct paths ↔ path ∈ paths :=
  List.mem_eraseDups

theorem distinct_cons (path : Text) (paths : List Text) :
    distinct (path :: paths) = path :: distinct (paths.filter fun p => !p == path) :=
  List.eraseDups_cons

theorem nodup_distinct (paths : List Text) : (distinct paths).Nodup := by
  induction h : paths.length using Nat.strongRecOn generalizing paths with
  | ind n ih =>
    cases paths with
    | nil => exact .nil
    | cons path paths =>
      have hle := List.length_filter_le (fun p => !p == path) paths
      rw [List.length_cons] at h
      rw [distinct_cons]
      refine List.nodup_cons.mpr ⟨?_, ih _ (by omega) _ rfl⟩
      rw [mem_distinct, List.mem_filter]
      simp

theorem findSome?_filter_ne {α : Type} {f : Text → Option α} {path : Text} (hf : f path = none)
    (paths : List Text) : (paths.filter fun p => !p == path).findSome? f = paths.findSome? f := by
  induction paths with
  | nil => rfl
  | cons p paths ih =>
    rw [List.filter_cons, List.findSome?_cons]
    by_cases hp : p = path
    · rw [if_neg (by simpa using hp), ih, hp, hf]
    · rw [if_pos (by simpa using hp), List.findSome?_cons, ih]

/-- What the first path with some property gives does not depend on repeats. -/
theorem findSome?_distinct {α : Type} (f : Text → Option α) (paths : List Text) :
    (distinct paths).findSome? f = paths.findSome? f := by
  induction h : paths.length using Nat.strongRecOn generalizing paths with
  | ind n ih =>
    cases paths with
    | nil => rfl
    | cons path paths =>
      have hle := List.length_filter_le (fun p => !p == path) paths
      rw [List.length_cons] at h
      rw [distinct_cons, List.findSome?_cons, List.findSome?_cons, ih _ (by omega) _ rfl]
      cases hf : f path with
      | some a => rfl
      | none => exact findSome?_filter_ne hf paths

/-! ## Results in turn -/

/-- How the scan of a path fails. -/
def failure? (scan : Scanner ε) (path : Text) : Option ε :=
  match (scan path).result with
  | .ok _ => none
  | .error e => some e

/-- What the scan of a path contributes. -/
def found (scan : Scanner ε) (path : Text) : List Finding :=
  match (scan path).result with
  | .ok findings => findings
  | .error _ => []

theorem inTurn_map_result (scan : Scanner ε) (paths : List Text) :
    (inTurn (paths.map scan)).result =
      match paths.findSome? (failure? scan) with
      | some e => .error e
      | none => .ok (paths.map (found scan)) := by
  induction paths with
  | nil => rfl
  | cons path paths ih =>
    rw [List.map_cons, List.findSome?_cons, failure?, List.map_cons, found]
    rcases hscan : scan path with ⟨log, _ | findings⟩
    · rfl
    · rw [inTurn]
      simp only [ih]
      cases paths.findSome? (failure? scan) <;> rfl

theorem pooled_oneByOne {workers : Int} (hw : 0 < workers) (scan : Scanner ε) (paths : List Text) :
    (pooled workers (Pool.oneByOne paths.length) scan paths).result
      = (inTurn (paths.map scan)).result := by
  have hresults : ((paths.map (Pool.doneSlot scan)).filterMap Slot.result?) = paths.map scan := by
    rw [List.filterMap_map, ← List.filterMap_eq_map]
    rfl
  rw [pooled, Pool.run_oneByOne hw, Pool.results, hresults]

theorem findings_result (workers : Int) (scan : Scanner ε) (paths : List Text) :
    (findings workers scan paths).result = (inTurn (paths.map scan)).result := by
  rw [findings]
  split
  · next h =>
    rw [inParallel, Bool.and_eq_true, decide_eq_true_eq] at h
    exact pooled_oneByOne (by omega) scan paths
  · rfl

/-- The outcome of a scan: the failure of the first path that has one, or a report on them all. -/
theorem run_result (workers : Int) (scan : Scanner ε) (paths : List Text) :
    (run workers scan paths).result =
      match paths.findSome? (failure? scan) with
      | some e => .error e
      | none => .ok (report (distinct paths) ((distinct paths).map (found scan))) := by
  have h := findings_result workers scan (distinct paths)
  rw [inTurn_map_result, findSome?_distinct] at h
  rw [run]
  rcases hf : findings workers scan (distinct paths) with ⟨log, result⟩
  rw [hf] at h
  simp only at h
  rw [h]
  cases paths.findSome? (failure? scan) <;> rfl

theorem failure?_eq_some_iff {scan : Scanner ε} {path : Text} {e : ε} :
    failure? scan path = some e ↔ (scan path).result = .error e := by
  rw [failure?]
  cases (scan path).result <;> simp

theorem failure?_eq_none_iff {scan : Scanner ε} {path : Text} :
    failure? scan path = none ↔ (scan path).result.isOk := by
  rw [failure?]
  cases (scan path).result <;> simp [Except.isOk, Except.toBool]

/-- A scan fails with the failure of the first path that has one. -/
theorem run_result_eq_error_iff {workers : Int} {scan : Scanner ε} {paths : List Text} {e : ε} :
    (run workers scan paths).result = .error e ↔
      ∃ before path after, paths = before ++ path :: after ∧
        (∀ p ∈ before, (scan p).result.isOk) ∧ (scan path).result = .error e := by
  have hfirst : (run workers scan paths).result = .error e ↔
      paths.findSome? (failure? scan) = some e := by
    rw [run_result]
    cases paths.findSome? (failure? scan) <;> simp
  simp only [hfirst, List.findSome?_eq_some_iff, failure?_eq_some_iff, failure?_eq_none_iff]
  constructor
  · rintro ⟨before, path, after, hpaths, hfail, hok⟩
    exact ⟨before, path, after, hpaths, hok, hfail⟩
  · rintro ⟨before, path, after, hpaths, hok, hfail⟩
    exact ⟨before, path, after, hpaths, hfail, hok⟩

end HiddenText.Scan
