import HiddenText.Scan.Run
import Mathlib.Algebra.Ring.Int.Defs

/-!
# What a report holds

`Report.Inv` relates the total of a report to its files.  It holds of the empty report and is kept
by `Report.add`, so it holds of every report on scanned paths; by it the total, which decides the exit
status, is zero only when there is nothing in the report (`Inv.isClean_iff`).  The files of a report
on distinct paths are those with findings, in the order of the paths (`Scan.files_report`).
-/

namespace HiddenText

namespace Report

/-- The number of findings of all files. -/
def findingCount (files : List (Text × List Finding)) : Int :=
  (files.map fun entry => (entry.2.length : Int)).sum

/-- What holds of every report that is made by adding. -/
structure Inv (r : Report) : Prop where
  nodup : r.paths.Nodup
  ne_nil : ∀ entry ∈ r.files, entry.2 ≠ []
  total_eq : r.total = findingCount r.files

theorem inv_empty : Inv {} where
  nodup := .nil
  ne_nil := by
    intro entry h
    cases h
  total_eq := rfl

/-- Adding what leaves a trace. -/
theorem add_of_new {r : Report} {path : Text} {findings : List Finding} (hne : findings ≠ [])
    (hnew : path ∉ r.paths) :
    r.add path findings =
      { files := r.files ++ [(path, findings)], total := r.total + findings.length } := by
  rw [add, if_neg]
  rw [Bool.or_eq_true, List.isEmpty_iff, List.contains_iff_mem]
  exact not_or.mpr ⟨hne, hnew⟩

/-- Adding what leaves none. -/
theorem add_of_old {r : Report} {path : Text} {findings : List Finding}
    (h : findings = [] ∨ path ∈ r.paths) : r.add path findings = r := by
  rw [add, if_pos]
  rw [Bool.or_eq_true, List.isEmpty_iff, List.contains_iff_mem]
  exact h

theorem paths_append (files more : List (Text × List Finding)) (total : Int) :
    paths { files := files ++ more, total } = files.map Prod.fst ++ more.map Prod.fst :=
  List.map_append

theorem findingCount_append (files more : List (Text × List Finding)) :
    findingCount (files ++ more) = findingCount files + findingCount more := by
  rw [findingCount, List.map_append, List.sum_append]
  rfl

theorem Inv.add {r : Report} (h : r.Inv) (path : Text) (findings : List Finding) :
    (r.add path findings).Inv := by
  by_cases hold : findings = [] ∨ path ∈ r.paths
  · rw [add_of_old hold]
    exact h
  · obtain ⟨hne, hnew⟩ := not_or.mp hold
    rw [add_of_new hne hnew]
    refine ⟨?_, ?_, ?_⟩
    · rw [paths_append, List.nodup_append]
      refine ⟨h.nodup, List.pairwise_singleton _ path, ?_⟩
      intro p hp q hq heq
      obtain rfl : q = path := List.mem_singleton.mp hq
      exact hnew (heq ▸ hp)
    · intro entry hentry
      rcases List.mem_append.mp hentry with hentry | hentry
      · exact h.ne_nil entry hentry
      · obtain rfl := List.mem_singleton.mp hentry
        exact hne
    · show r.total + findings.length = findingCount (r.files ++ [(path, findings)])
      rw [findingCount_append, ← h.total_eq, findingCount, List.map_singleton, List.sum_singleton]

theorem Inv.foldl_add {r : Report} (h : r.Inv) (entries : List (Text × List Finding)) :
    (entries.foldl (fun r (path, found) => r.add path found) r).Inv := by
  induction entries generalizing r with
  | nil => exact h
  | cons entry entries ih => exact ih (h.add entry.1 entry.2)

theorem findingCount_nonneg (files : List (Text × List Finding)) : 0 ≤ findingCount files := by
  induction files with
  | nil => exact Int.le_refl 0
  | cons entry files ih =>
    rw [findingCount, List.map_cons, List.sum_cons, ← findingCount]
    omega

theorem Inv.eq_empty_iff {r : Report} (h : r.Inv) : r = {} ↔ r.files = [] := by
  constructor
  · rintro rfl
    rfl
  · intro hfiles
    have htotal := h.total_eq
    obtain ⟨files, total⟩ := r
    obtain rfl : files = [] := hfiles
    obtain rfl : total = 0 := htotal
    rfl

theorem Inv.isClean_iff {r : Report} (h : r.Inv) : r.isClean = true ↔ r = {} := by
  rw [isClean, beq_iff_eq, h.total_eq]
  constructor
  · intro hcount
    rw [h.eq_empty_iff]
    cases hfiles : r.files with
    | nil => rfl
    | cons entry files =>
      have hmem : entry ∈ r.files := hfiles ▸ List.mem_cons_self
      have hpos : 0 < entry.2.length := List.length_pos_iff.mpr (h.ne_nil entry hmem)
      have hrest := findingCount_nonneg files
      rw [hfiles, findingCount, List.map_cons, List.sum_cons, ← findingCount] at hcount
      omega
  · rintro rfl
    rfl

theorem exitStatus_eq_zero_iff {r : Report} : r.exitStatus = 0 ↔ r.isClean = true := by
  rw [exitStatus]
  cases r.isClean <;> decide

end Report

namespace Scan

theorem inv_report (paths : List Text) (results : List (List Finding)) :
    (report paths results).Inv :=
  Report.inv_empty.foldl_add _

/-- The entries for paths with findings. -/
def entriesOf (found : Text → List Finding) (paths : List Text) : List (Text × List Finding) :=
  (paths.map fun path => (path, found path)).filter fun entry => !entry.2.isEmpty

theorem files_foldl_add (found : Text → List Finding) {paths : List Text} (hnodup : paths.Nodup) :
    ∀ r : Report, (∀ path ∈ paths, path ∉ r.paths) →
      ((paths.zip (paths.map found)).foldl (fun r (path, found) => r.add path found) r).files =
        r.files ++ entriesOf found paths := by
  induction paths with
  | nil =>
    intro r _
    exact (List.append_nil r.files).symm
  | cons path paths ih =>
    intro r hnew
    obtain ⟨hpath, hpaths⟩ := List.nodup_cons.mp hnodup
    obtain ⟨hnewPath, hnewPaths⟩ := List.forall_mem_cons.mp hnew
    rw [List.map_cons, List.zip_cons_cons, List.foldl_cons, entriesOf, List.map_cons,
      List.filter_cons, ← entriesOf]
    simp only
    by_cases hne : found path = []
    · rw [Report.add_of_old (.inl hne), ih hpaths r hnewPaths, hne]
      rfl
    · rw [if_pos (by simpa using hne), Report.add_of_new hne hnewPath, ih hpaths, List.append_assoc]
      · rfl
      · intro p hp hmem
        rw [Report.paths_append, List.mem_append] at hmem
        rcases hmem with hmem | hmem
        · exact hnewPaths p hp hmem
        · obtain rfl : p = path := List.mem_singleton.mp hmem
          exact hpath hp

/-- The files of a report are the paths with findings, in the order of the paths. -/
theorem files_report (found : Text → List Finding) {paths : List Text} (hnodup : paths.Nodup) :
    (report paths (paths.map found)).files = entriesOf found paths :=
  files_foldl_add found hnodup {} fun _ _ hmem => by cases hmem

theorem entriesOf_eq_nil_iff {found : Text → List Finding} {paths : List Text} :
    entriesOf found paths = [] ↔ ∀ path ∈ paths, found path = [] := by
  simp [entriesOf, List.filter_eq_nil_iff]

theorem report_eq_empty_iff {found : Text → List Finding} {paths : List Text}
    (hnodup : paths.Nodup) :
    report paths (paths.map found) = {} ↔ ∀ path ∈ paths, found path = [] := by
  rw [(inv_report _ _).eq_empty_iff, files_report found hnodup, entriesOf_eq_nil_iff]

end Scan

end HiddenText
