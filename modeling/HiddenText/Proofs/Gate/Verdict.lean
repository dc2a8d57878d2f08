import HiddenText.Gate.Run
import HiddenText.Proofs.Files.Written
import HiddenText.Proofs.Finding.Collect
import HiddenText.Proofs.Report.Contents
import HiddenText.Proofs.Scan.Outcome
import HiddenText.Proofs.Utf8.Inverse

/-!
# The verdict

When the gate is green.  `Reported` collects what has to go well for a run to write its report: a
run ends with the status of the report then (`Reported.run_eq`), and a run that ends with another
status than 1 is of that kind (`exists_reported`).  The status of the report is 0 when no listed
file shows a catalogued character (`Disk.scanned_eq_empty_iff`).

Main statement: `status_eq_zero_iff`.
-/

namespace HiddenText

/-! ## What is found in files -/

/-- The path leads to a file that is UTF-8 throughout and has a catalogued character. -/
def Disk.Shows (d : Disk) (path : Text) : Prop :=
  ∃ data t, d.read path = .ok data ∧ Utf8.Encodes data t ∧
    ∃ c name, c ∈ t ∧ (c, name) ∈ catalogue

theorem Finding.exists_mem_catalogue_iff {t : Text} :
    (∃ c name, c ∈ t ∧ (c, name) ∈ catalogue) ↔ all t ≠ [] := by
  rw [ne_eq, all_eq_nil_iff]
  constructor
  · rintro ⟨c, name, hc, hname⟩ hclean
    have h := name?_of_mem_catalogue hname
    rw [hclean c hc] at h
    cases h
  · intro h
    obtain ⟨c, hc⟩ := Classical.not_forall.mp h
    obtain ⟨hc, hname⟩ := Classical.not_imp.mp hc
    obtain ⟨name, hname⟩ := Option.ne_none_iff_exists'.mp hname
    exact ⟨c, name, hc, mem_catalogue_of_name? hname⟩

theorem Disk.found_ne_nil_iff {d : Disk} {path : Text} :
    Scan.found d.scan path ≠ [] ↔ d.Shows path := by
  simp only [Shows, Finding.exists_mem_catalogue_iff, ← Utf8.decode_eq_ok_iff]
  rw [Scan.found, scan]
  cases d.read path with
  | error e => cases e <;> simp [Scan.ofRead]
  | ok data =>
    rw [Scan.ofRead]
    cases hdecode : Utf8.decode data <;> simp [hdecode]

theorem Disk.scanned_eq_empty_iff {d : Disk} {workers : Int} {paths : List Text} {r : Report}
    (h : (Scan.run workers d.scan paths).result = .ok r) :
    r = {} ↔ ∀ path ∈ paths, ¬d.Shows path := by
  rw [Scan.run_result] at h
  split at h
  · cases h
  · obtain rfl := Except.ok.inj h
    rw [Scan.report_eq_empty_iff (Scan.nodup_distinct paths)]
    constructor
    · intro hnone path hpath hshows
      exact found_ne_nil_iff.mpr hshows (hnone path (Scan.mem_distinct.mpr hpath))
    · intro hnone path hpath
      refine Classical.byContradiction fun hne => ?_
      exact hnone path (Scan.mem_distinct.mp hpath) (found_ne_nil_iff.mp hne)

/-! ## Runs -/

theorem Environment.one_le_workers {env : Environment} {n : Int} (h : env.workers = .ok n) :
    1 ≤ n := by
  rw [Environment.workers] at h
  split at h
  · have hone : 1 = n := Except.ok.inj h
    omega
  · split at h
    · split at h
      · cases h
      · next hn =>
        rw [← Except.ok.inj h]
        omega
    · cases h

theorem Options.one_le_workers {o : Options} {env : Environment} {plan : Plan}
    (h : o.plan env = .ok plan) : 1 ≤ plan.workers := by
  have hworkers : o.workers env = .ok plan.workers := by
    rw [Options.plan] at h
    cases hw : o.workers env with
    | error e => rw [hw] at h; cases h
    | ok n =>
      rw [hw] at h
      obtain rfl := Except.ok.inj h
      rfl
  rw [Options.workers] at hworkers
  split at hworkers
  · split at hworkers
    · cases hworkers
    · next hn =>
      rw [← Except.ok.inj hworkers]
      omega
  · cases hworkers
  · cases henv : env.workers with
    | error e => rw [henv] at hworkers; cases hworkers
    | ok n =>
      rw [henv] at hworkers
      obtain rfl := Except.ok.inj hworkers
      exact Environment.one_le_workers henv

namespace Gate

/-- A run that got so far as to write its report. -/
structure Reported (w : World) (arguments : List Text) (plan : Plan) (paths : List Text)
    (report : Report) : Prop where
  accepted : ∃ o, Options.ofCommandLine arguments = .ok o ∧ o.plan w.environment = .ok plan
  listed : (plan.provider.list w.disk w.git).result = .ok paths
  scanned : (Scan.run plan.workers w.disk.scan paths).result = .ok report
  written : (report.write w.disk plan.reportPath).outcome = .ok ()

variable {w : World} {arguments : List Text} {plan : Plan} {paths : List Text} {report : Report}

theorem run_of_plan {o : Options} (hoptions : Options.ofCommandLine arguments = .ok o)
    (hplan : o.plan w.environment = .ok plan) : run w arguments = carryOut w plan := by
  rw [run, hoptions]
  simp only [hplan]

theorem carryOut_of_list (h : (plan.provider.list w.disk w.git).result = .ok paths) :
    ∃ log, carryOut w plan = finish w plan log paths := by
  rw [carryOut]
  rcases hlist : plan.provider.list w.disk w.git with ⟨log, result⟩
  rw [hlist] at h
  obtain rfl : result = .ok paths := h
  exact ⟨log, rfl⟩

theorem finish_of_scan (log : List Event)
    (h : (Scan.run plan.workers w.disk.scan paths).result = .ok report) :
    ∃ log', (finish w plan log paths).toConclusion = Conclusion.ofReport plan log'
        (report.emit w.disk plan.reportPath).shown
        (report.emit w.disk plan.reportPath).outcome ∧
      (finish w plan log paths).files = (report.emit w.disk plan.reportPath).files := by
  rw [finish]
  rcases hscan : Scan.run plan.workers w.disk.scan paths with ⟨scanLog, result⟩
  rw [hscan] at h
  obtain rfl : result = .ok report := h
  exact ⟨_, rfl, rfl⟩

theorem Reported.files_run (h : Reported w arguments plan paths report) :
    (run w arguments).files = (report.write w.disk plan.reportPath).files := by
  obtain ⟨o, hoptions, hplan⟩ := h.accepted
  obtain ⟨log, hcarry⟩ := carryOut_of_list h.listed
  obtain ⟨-, -, hfiles⟩ := finish_of_scan log h.scanned
  rw [run_of_plan hoptions hplan, hcarry, hfiles, Report.files_emit]

/-- A run with a report, if it ends with a status at all, ends with the one of the report and shows
its summary after the banner. -/
theorem Reported.run_eq (h : Reported w arguments plan paths report) {n : Nat}
    (hn : (run w arguments).ending = .status n) : n = report.exitStatus ∧
      (run w arguments).output =
        (Conclusion.banner plan.provider ++ report.summary plan.reportPath).marked := by
  obtain ⟨o, hoptions, hplan⟩ := h.accepted
  obtain ⟨log, hcarry⟩ := carryOut_of_list h.listed
  obtain ⟨log', hconclusion, -⟩ := finish_of_scan log h.scanned
  obtain ⟨-, houtcome⟩ := Report.emit_of_written h.written
  rw [run_of_plan hoptions hplan, hcarry, hconclusion] at hn
  rw [run_of_plan hoptions hplan, hcarry, hconclusion]
  rw [Report.told] at houtcome
  split at houtcome
  · obtain ⟨-, hshown, -⟩ := Report.emit_eq_ok houtcome
    rw [houtcome, hshown] at hn ⊢
    exact ⟨(Ending.status.inj hn).symm, rfl⟩
  · rw [houtcome] at hn
    cases hn

/-! Failures that are handled end with status 1, the others with no status. -/

theorem exists_plan {n : Nat} (h : (run w arguments).ending = .status n) (hn : n ≠ 1) :
    ∃ o plan, Options.ofCommandLine arguments = .ok o ∧ o.plan w.environment = .ok plan ∧
      (carryOut w plan).ending = .status n := by
  cases hoptions : Options.ofCommandLine arguments with
  | error stop =>
    rw [run, hoptions] at h
    cases h
  | ok o =>
    cases hplan : o.plan w.environment with
    | error e =>
      rw [run, hoptions] at h
      simp only [hplan] at h
      cases e with
      | settings e => exact absurd (Ending.status.inj h).symm hn
      | notPositive => exact absurd (Ending.status.inj h).symm hn
      | withoutValue => cases h
    | ok plan =>
      rw [run_of_plan hoptions hplan] at h
      exact ⟨o, plan, rfl, hplan, h⟩

theorem exists_paths {n : Nat} (h : (carryOut w plan).ending = .status n) (hn : n ≠ 1) :
    ∃ paths log, (plan.provider.list w.disk w.git).result = .ok paths ∧
      (finish w plan log paths).ending = .status n := by
  rw [carryOut] at h
  rcases hlist : plan.provider.list w.disk w.git with ⟨log, e | paths⟩
  · rw [hlist] at h
    cases e with
    | listing e => exact absurd (Ending.status.inj h).symm hn
    | link e => cases h
    | tooDeep => cases h
  · rw [hlist] at h
    exact ⟨paths, log, rfl, h⟩

theorem exists_report {n : Nat} {log : List Event}
    (h : (finish w plan log paths).ending = .status n) (hn : n ≠ 1) :
    ∃ report, (Scan.run plan.workers w.disk.scan paths).result = .ok report ∧
      (report.write w.disk plan.reportPath).outcome = .ok () := by
  cases hscan : (Scan.run plan.workers w.disk.scan paths).result with
  | error b =>
    rw [finish] at h
    rcases hrun : Scan.run plan.workers w.disk.scan paths with ⟨scanLog, result⟩
    rw [hrun] at h hscan
    obtain rfl : result = .error b := hscan
    cases h
  | ok report =>
    obtain ⟨log', hconclusion, -⟩ := finish_of_scan log hscan
    rw [hconclusion] at h
    cases hemit : (report.emit w.disk plan.reportPath).outcome with
    | ok _ => exact ⟨report, rfl, (Report.emit_eq_ok hemit).1⟩
    | error e =>
      rw [hemit] at h
      rcases e with (e | b) | _ | _
      · exact absurd (Ending.status.inj h).symm hn
      all_goals cases h

/-- A run whose status is not 1 wrote its report. -/
theorem exists_reported {n : Nat} (h : (run w arguments).ending = .status n) (hn : n ≠ 1) :
    ∃ plan paths report, Reported w arguments plan paths report := by
  obtain ⟨o, plan, hoptions, hplan, hcarry⟩ := exists_plan h hn
  obtain ⟨paths, log, hlist, hfinish⟩ := exists_paths hcarry hn
  obtain ⟨report, hscan, hwrite⟩ := exists_report hfinish hn
  exact ⟨plan, paths, report, ⟨o, hoptions, hplan⟩, hlist, hscan, hwrite⟩

theorem exitStatus_scanned {workers : Int} {scan : Scan.Scanner BadText}
    (h : (Scan.run workers scan paths).result = .ok report) :
    report.exitStatus = 0 ↔ report = {} := by
  rw [Scan.run_result] at h
  split at h
  · cases h
  · obtain rfl := Except.ok.inj h
    rw [Report.exitStatus_eq_zero_iff, (Scan.inv_report _ _).isClean_iff]

theorem Reported.status_eq_zero_iff_shows (h : Reported w arguments plan paths report) {n : Nat}
    (hn : (run w arguments).ending = .status n) :
    n = 0 ↔ ∀ path ∈ paths, ¬w.disk.Shows path := by
  rw [(h.run_eq hn).1, exitStatus_scanned h.scanned, Disk.scanned_eq_empty_iff h.scanned]

theorem data_empty : Report.data {} = .ok [0x7B, 0x7D] := rfl

theorem banner_append_summary (p : Provider) (path : Text) :
    Conclusion.banner p ++ Report.summary {} path =
      Text.ofLines [lit "Scanning " ++ p.description
        ++ lit " for unsafe Unicode control characters...", [], Report.cleanLine] := by
  have hlines : ({} : Report).summaryLines path = [Report.cleanLine] := rfl
  rw [Conclusion.banner, Report.summary, hlines, Text.ofLines, Text.ofLines, ← List.flatMap_append]
  rfl

/-- **The gate is green exactly when there is nothing to see.**  A run that ends with a status ends
with 0 or 1.  It ends with 0 just in case its options and settings are accepted, with at least one
worker, its files are listed, none of them shows a catalogued character, and the report on them is
written; then the report file holds the two bytes of an empty object, and the success line is all
that is shown after the banner. -/
theorem status_eq_zero_iff {n : Nat} (h : (run w arguments).ending = .status n) :
    (n = 0 ↔ ∃ plan paths report, Reported w arguments plan paths report ∧ 1 ≤ plan.workers ∧
      ∀ path ∈ paths, ¬w.disk.Shows path) ∧
    (n ≠ 0 → n = 1) ∧
    (n = 0 → ∃ o plan, Options.ofCommandLine arguments = .ok o ∧ o.plan w.environment = .ok plan ∧
      (run w arguments).files.read plan.reportPath = .ok [0x7B, 0x7D] ∧
      (run w arguments).output =
        (Text.ofLines [lit "Scanning " ++ plan.provider.description
            ++ lit " for unsafe Unicode control characters...", [], Report.cleanLine]).marked) := by
  refine ⟨⟨?_, ?_⟩, ?_, ?_⟩
  · intro hn
    obtain ⟨plan, paths, report, hreported⟩ := exists_reported h (by omega)
    obtain ⟨o, -, hplan⟩ := hreported.accepted
    have hshows := (hreported.status_eq_zero_iff_shows h).mp hn
    exact ⟨plan, paths, report, hreported, Options.one_le_workers hplan, hshows⟩
  · rintro ⟨plan, paths, report, hreported, -, hshows⟩
    exact (hreported.status_eq_zero_iff_shows h).mpr hshows
  · intro hn
    by_cases hone : n = 1
    · exact hone
    · obtain ⟨plan, paths, report, hreported⟩ := exists_reported h hone
      have hstatus := (hreported.run_eq h).1
      rw [Report.exitStatus] at hstatus
      split at hstatus
      · exact absurd hstatus hn
      · exact hstatus
  · intro hn
    obtain ⟨plan, paths, report, hreported⟩ := exists_reported h (by omega)
    obtain ⟨o, hoptions, hplan⟩ := hreported.accepted
    obtain ⟨hstatus, houtput⟩ := hreported.run_eq h
    have hempty : report = {} := by
      rw [← exitStatus_scanned hreported.scanned, ← hstatus]
      exact hn
    subst hempty
    obtain ⟨bytes, hbytes, hread⟩ := Report.read_of_write hreported.written
    rw [data_empty] at hbytes
    obtain rfl := Except.ok.inj hbytes
    refine ⟨o, plan, hoptions, hplan, ?_, ?_⟩
    · rw [hreported.files_run]
      exact hread
    · rw [houtput, banner_append_summary]

/-- A directory with one file, whose text is `é`. -/
def oneFile : World :=
  { disk := { files := { root := .dir [([0x61], .file [0xC3, 0xA9])], working := [] } }
    git := .notStarted .noEntry }

theorem status_eq_zero_iff_oneFile :
    (run oneFile [lit "a", lit "--report", lit "r"]).ending = .status 0 ∧
      (run oneFile [lit "a", lit "--report", lit "r"]).opened = [lit "a"] ∧
      ∃ plan report, Reported oneFile [lit "a", lit "--report", lit "r"] plan [lit "a"] report ∧
        1 ≤ plan.workers ∧ ¬oneFile.disk.Shows (lit "a") := by
  have h : (run oneFile [lit "a", lit "--report", lit "r"]).ending = .status 0 := by
    decide +kernel
  obtain ⟨plan, paths, report, hreported, hworkers, hshows⟩ := (status_eq_zero_iff h).1.mp rfl
  obtain ⟨o, hoptions, hplan⟩ := hreported.accepted
  obtain rfl : _ = o := Except.ok.inj hoptions
  obtain rfl : _ = plan := Except.ok.inj hplan
  obtain rfl : [lit "a"] = paths := Except.ok.inj hreported.listed
  exact ⟨h, by decide +kernel, _, report, hreported, hworkers, hshows _ List.mem_cons_self⟩

end Gate

end HiddenText
