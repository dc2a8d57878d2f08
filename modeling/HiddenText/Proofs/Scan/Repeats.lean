import HiddenText.Proofs.Report.Contents
import HiddenText.Proofs.Scan.Outcome
import Mathlib.Algebra.BigOperators.Group.List.Basic
import Mathlib.Data.List.Induction
import Mathlib.Logic.Relation

/-!
# Repeated, clean and reordered paths

The report of a scan in which no path fails, told from the list of paths alone: the paths with
findings, each where it stands first (`firsts`), and the number of these findings.  What the list
has besides does not count: a path that was listed before, or has no findings, may be put in
anywhere (`entriesOf_insert`), and another order of the paths only changes the order of the files.

Main statement: `run_eq_firsts`.
-/

namespace HiddenText

/-- The files of a report that is made by adding determine it. -/
theorem Report.Inv.ext {r r' : Report} (h : r.Inv) (h' : r'.Inv) (hfiles : r.files = r'.files) :
    r = r' := by
  have htotal : r.total = r'.total := by rw [h.total_eq, h'.total_eq, hfiles]
  cases r
  cases r'
  simp only at hfiles htotal
  rw [hfiles, htotal]

namespace Scan

variable {ε : Type} {found : Text → List Finding} {scan : Scanner ε} {path : Text}
  {paths paths' : List Text}

/-! ## First occurrences -/

/-- The paths at the first index at which they stand. -/
def firsts (paths : List Text) : List Text :=
  (paths.zipIdx.filter fun entry => paths.idxOf entry.1 == entry.2).map Prod.fst

theorem distinct_append_of_mem (h : path ∈ paths) : distinct (paths ++ [path]) = distinct paths := by
  rw [distinct, List.eraseDups_append, List.removeAll, List.filter_singleton]
  simp [h, distinct]

theorem distinct_append_of_not_mem (h : path ∉ paths) :
    distinct (paths ++ [path]) = distinct paths ++ [path] := by
  rw [distinct, List.eraseDups_append, List.removeAll, List.filter_singleton]
  simp [h, distinct, List.eraseDups_cons]

/-- A path that comes later does not change where the others stand. -/
theorem filter_zipIdx_append (paths : List Text) (path : Text) :
    (paths.zipIdx.filter fun entry => (paths ++ [path]).idxOf entry.1 == entry.2) =
      paths.zipIdx.filter fun entry => paths.idxOf entry.1 == entry.2 := by
  apply List.filter_congr
  intro entry hentry
  rw [List.idxOf_append_of_mem (List.fst_mem_of_mem_zipIdx hentry)]

theorem firsts_append_of_mem (h : path ∈ paths) : firsts (paths ++ [path]) = firsts paths := by
  have hidx : (paths ++ [path]).idxOf path ≠ paths.length := by
    have hlt := List.idxOf_lt_length_of_mem h
    rw [List.idxOf_append_of_mem h]
    omega
  rw [firsts, List.zipIdx_append, List.filter_append, List.map_append, filter_zipIdx_append,
    ← firsts]
  simp [hidx]

theorem firsts_append_of_not_mem (h : path ∉ paths) :
    firsts (paths ++ [path]) = firsts paths ++ [path] := by
  have hidx : (paths ++ [path]).idxOf path = paths.length := by
    rw [List.idxOf_append_of_notMem h, List.idxOf_cons_self, Nat.add_zero]
  rw [firsts, List.zipIdx_append, List.filter_append, List.map_append, filter_zipIdx_append,
    ← firsts]
  simp [hidx]

theorem distinct_eq_firsts (paths : List Text) : distinct paths = firsts paths := by
  induction paths using List.reverseRecOn with
  | nil => rfl
  | append_singleton paths path ih =>
    by_cases h : path ∈ paths
    · rw [distinct_append_of_mem h, firsts_append_of_mem h, ih]
    · rw [distinct_append_of_not_mem h, firsts_append_of_not_mem h, ih]

/-! ## Paths that do not count -/

theorem distinct_filter (p : Text → Bool) (paths : List Text) :
    distinct (paths.filter p) = (distinct paths).filter p := by
  induction paths using List.reverseRecOn with
  | nil => rfl
  | append_singleton paths path ih =>
    rw [List.filter_append, List.filter_singleton]
    by_cases hp : p path
    · rw [hp, cond_true]
      by_cases hmem : path ∈ paths
      · rw [distinct_append_of_mem (List.mem_filter.mpr ⟨hmem, hp⟩), ih,
          distinct_append_of_mem hmem]
      · have hnot : path ∉ paths.filter p := fun h => hmem (List.mem_of_mem_filter h)
        rw [distinct_append_of_not_mem hnot, ih, distinct_append_of_not_mem hmem,
          List.filter_append, List.filter_singleton, hp, cond_true]
    · rw [Bool.eq_false_iff.mpr hp, cond_false, List.append_nil, ih]
      by_cases hmem : path ∈ paths
      · rw [distinct_append_of_mem hmem]
      · rw [distinct_append_of_not_mem hmem, List.filter_append, List.filter_singleton,
          Bool.eq_false_iff.mpr hp, cond_false, List.append_nil]

/-- A path that stands earlier in a list may be left out. -/
theorem distinct_insert {before : List Text} {path : Text} (h : path ∈ before)
    (after : List Text) : distinct (before ++ path :: after) = distinct (before ++ after) := by
  have hcons : (path :: after).removeAll before = after.removeAll before := by
    rw [List.removeAll, List.filter_cons]
    simp [h, List.removeAll]
  rw [distinct, distinct, List.eraseDups_append, List.eraseDups_append, hcons]

theorem entriesOf_eq_map (found : Text → List Finding) (paths : List Text) :
    entriesOf found paths =
      (paths.filter fun path => !(found path).isEmpty).map fun path => (path, found path) := by
  rw [entriesOf, List.filter_map]
  rfl

theorem entriesOf_distinct (found : Text → List Finding) (paths : List Text) :
    entriesOf found (distinct paths) =
      (distinct (paths.filter fun path => !(found path).isEmpty)).map
        fun path => (path, found path) := by
  rw [entriesOf_eq_map, distinct_filter]

theorem entriesOf_insert {before : List Text} {path : Text}
    (h : path ∈ before ∨ found path = []) (after : List Text) :
    entriesOf found (distinct (before ++ path :: after)) =
      entriesOf found (distinct (before ++ after)) := by
  rw [entriesOf_distinct, entriesOf_distinct, List.filter_append, List.filter_append,
    List.filter_cons]
  by_cases hfound : found path = []
  · simp [hfound]
  · have hshows : (!(found path).isEmpty) = true := by simpa using hfound
    have hmem : path ∈ before.filter fun path => !(found path).isEmpty :=
      List.mem_filter.mpr ⟨h.resolve_right hfound, hshows⟩
    rw [if_pos hshows, distinct_insert hmem]

/-- Of the paths, those that have findings are enough. -/
theorem entriesOf_filter {kept : Text → Bool}
    (h : ∀ path ∈ paths, found path ≠ [] → kept path = true) :
    entriesOf found (distinct (paths.filter kept)) = entriesOf found (distinct paths) := by
  have hkept : ((paths.filter kept).filter fun path => !(found path).isEmpty) =
      paths.filter fun path => !(found path).isEmpty := by
    rw [List.filter_filter]
    apply List.filter_congr
    intro path hpath
    by_cases hfound : found path = []
    · simp [hfound]
    · simp [h path hpath hfound]
  rw [entriesOf_distinct, entriesOf_distinct, hkept]

/-- One more path is put into a list, which stands there earlier or has no findings. -/
inductive Pads (found : Text → List Finding) : List Text → List Text → Prop
  | insert (before after : List Text) (path : Text) (h : path ∈ before ∨ found path = []) :
      Pads found (before ++ after) (before ++ path :: after)

theorem entriesOf_of_pads (h : Relation.ReflTransGen (Pads found) paths paths') :
    entriesOf found (distinct paths') = entriesOf found (distinct paths) := by
  induction h with
  | refl => rfl
  | tail _ hstep ih =>
    cases hstep with
    | insert before after path h => rw [entriesOf_insert h, ih]

/-! ## Another order -/

theorem perm_distinct (h : paths.Perm paths') : (distinct paths).Perm (distinct paths') := by
  rw [List.perm_ext_iff_of_nodup (nodup_distinct paths) (nodup_distinct paths')]
  intro path
  rw [mem_distinct, mem_distinct, h.mem_iff]

theorem findingCount_entriesOf (found : Text → List Finding) (paths : List Text) :
    Report.findingCount (entriesOf found paths) =
      (paths.map fun path => ((found path).length : Int)).sum := by
  induction paths with
  | nil => rfl
  | cons path paths ih =>
    rw [entriesOf, List.map_cons, List.filter_cons, List.map_cons, List.sum_cons, ← ih,
      Report.findingCount, entriesOf]
    by_cases h : found path = []
    · simp [h, Report.findingCount]
    · simp [h, Report.findingCount]

theorem lookup_entriesOf (found : Text → List Finding) (paths : List Text) (path : Text)
    (findings : List Finding) :
    (entriesOf found paths).lookup path = some findings ↔
      path ∈ paths ∧ found path = findings ∧ findings ≠ [] := by
  induction paths with
  | nil => simp [entriesOf]
  | cons p paths ih =>
    rw [entriesOf, List.map_cons, List.filter_cons, ← entriesOf]
    by_cases hp : path = p
    · subst hp
      by_cases hfound : found path = []
      · simp only [hfound, List.isEmpty_nil, Bool.not_true, Bool.false_eq_true, if_false, ih,
          List.mem_cons, true_or, true_and]
        constructor
        · rintro ⟨-, h⟩
          exact h
        · rintro ⟨rfl, h⟩
          exact absurd rfl h
      · simp [hfound]
        rintro rfl
        exact hfound
    · have hbeq : (path == p) = false := beq_eq_false_iff_ne.mpr hp
      by_cases hfound : found p = []
      · simp [hfound, ih, hp]
      · simp [hfound, List.lookup_cons, hbeq, ih, hp]

/-! ## The report -/

theorem run_of_found (hscan : ∀ path, (scan path).result = .ok (found path)) (workers : Int)
    (paths : List Text) :
    (run workers scan paths).result =
      .ok (report (distinct paths) ((distinct paths).map found)) := by
  have hfailure : paths.findSome? (failure? scan) = none := by
    rw [List.findSome?_eq_none_iff]
    intro path _
    rw [failure?, hscan]
  have hfound : Scan.found scan = found := by
    funext path
    rw [Scan.found, hscan]
  rw [run_result, hfailure, hfound]

theorem report_congr {found' : Text → List Finding}
    (h : entriesOf found' (distinct paths') = entriesOf found (distinct paths)) :
    report (distinct paths') ((distinct paths').map found') =
      report (distinct paths) ((distinct paths).map found) := by
  apply (inv_report _ _).ext (inv_report _ _)
  rw [files_report found' (nodup_distinct paths'), files_report found (nodup_distinct paths), h]

theorem total_report (found : Text → List Finding) (paths : List Text) :
    (report (distinct paths) ((distinct paths).map found)).total =
      ((distinct paths).map fun path => ((found path).length : Int)).sum := by
  rw [(inv_report _ _).total_eq, files_report found (nodup_distinct paths), findingCount_entriesOf]

/-- **A scan counts every path once.**  When no path fails, the report has the paths with findings
in the order of their first occurrences, each with its findings, and the number of these findings.
So it stays the same when paths that have been listed before, or have no findings, are put in, and
in another order of the paths it has the same total, ends with the same status, and has the same
findings for every path. -/
theorem run_eq_firsts (hscan : ∀ path, (scan path).result = .ok (found path))
    (paths : List Text) :
    ∃ r : Report, (∀ workers, (run workers scan paths).result = .ok r) ∧
      r.files = ((firsts paths).filter fun path => !(found path).isEmpty).map
        (fun path => (path, found path)) ∧
      r.total = ((firsts paths).map fun path => ((found path).length : Int)).sum ∧
      (∀ paths', Relation.ReflTransGen (Pads found) paths paths' →
        ∀ workers, (run workers scan paths').result = .ok r) ∧
      ∀ paths', paths.Perm paths' → ∃ r' : Report,
        (∀ workers, (run workers scan paths').result = .ok r') ∧
        r'.total = r.total ∧ r'.exitStatus = r.exitStatus ∧
        ∀ path, r'.files.lookup path = r.files.lookup path := by
  refine ⟨report (distinct paths) ((distinct paths).map found), ?_, ?_, ?_, ?_, ?_⟩
  · intro workers
    exact run_of_found hscan workers paths
  · rw [files_report found (nodup_distinct paths), entriesOf_eq_map, distinct_eq_firsts]
  · rw [total_report, distinct_eq_firsts]
  · intro paths' hpads workers
    rw [run_of_found hscan, report_congr (entriesOf_of_pads hpads)]
  · intro paths' hperm
    have htotal : (report (distinct paths') ((distinct paths').map found)).total =
        (report (distinct paths) ((distinct paths).map found)).total := by
      rw [total_report, total_report]
      exact ((perm_distinct hperm).map _).sum_eq.symm
    refine ⟨report (distinct paths') ((distinct paths').map found), ?_, htotal, ?_, ?_⟩
    · intro workers
      exact run_of_found hscan workers paths'
    · rw [Report.exitStatus, Report.exitStatus, Report.isClean, Report.isClean, htotal]
    · intro path
      rw [files_report found (nodup_distinct paths'), files_report found (nodup_distinct paths)]
      apply Option.ext
      intro findings
      rw [lookup_entriesOf, lookup_entriesOf, (perm_distinct hperm).mem_iff]

/-- Takes the path for the text. -/
def scanName : Scanner Nat := fun path => ⟨[], .ok (Finding.all path)⟩

def someNames : List Text :=
  [lit "\u200B", lit "\u202Ea\u202C", lit "b", lit "\u202Ea\u202C"]

/-- The second name is listed twice and counts once, the third one is clean. -/
theorem run_eq_firsts_someNames :
    (∀ path, (scanName path).result = .ok (Finding.all path)) ∧
      ∃ r : Report, (run 3 scanName someNames).result = .ok r ∧
        r.paths = [lit "\u200B", lit "\u202Ea\u202C"] ∧ r.total = 3 := by
  have hscan : ∀ path, (scanName path).result = .ok (Finding.all path) := fun _ => rfl
  obtain ⟨r, hrun, hfiles, htotal, -, -⟩ := run_eq_firsts hscan someNames
  refine ⟨hscan, r, hrun 3, ?_, ?_⟩
  · rw [Report.paths, hfiles]
    decide
  · rw [htotal]
    decide

end Scan

end HiddenText
