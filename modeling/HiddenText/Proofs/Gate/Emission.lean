import HiddenText.Proofs.Files.Made
import HiddenText.Proofs.Gate.Names
import HiddenText.Proofs.Text.Numerals

/-!
# Putting a report out

A report is put out as a whole or not at all.  The directories for it are made first; then its file
is opened, and nothing that comes after can fail, if the report has bytes at all and no number in it
is too long to be written (`Report.emit_eq_or`).  So a failure leaves every file as it was, and shows
nothing.  What a run does after its scan is what putting its report out comes to
(`Gate.Scanned.run_eq`).

Main statement: `Report.emit_whole_or_nothing`.
-/

namespace HiddenText

/-! ## The report file -/

namespace Report

open FileSystem

variable {r : Report} {d : Disk} {path : Text} {bytes : Bytes}

/-- First directories are made on the way to the report, then the file is written as a whole. -/
theorem write_eq_or (hdata : r.data = .ok bytes) (d : Disk) (path : Text) :
    ∃ fs, Made d.files fs (Path.parent path) none ∧
      ((∃ e, r.write d path = ⟨fs, [], .error e⟩) ∨
        ∃ place, fs.openForWriting path = .ok place ∧
          r.write d path = ⟨fs.put place (.file bytes), [.wroteReport path], .ok ()⟩) := by
  have hdirectories := made_createDirectories d.files d.depths.made (Path.parent path)
  rw [write, hdata]
  split
  · next fs e hmade =>
    refine ⟨fs, ?_, .inl ⟨e, rfl⟩⟩
    split at hmade
    · cases hmade
    · rwa [hmade] at hdirectories
  · next fs hmade =>
    have hfiles : Made d.files fs (Path.parent path) none := by
      split at hmade
      · rw [← (Changed.mk.inj hmade).1]
        exact .refl _ _
      · rwa [hmade] at hdirectories
    refine ⟨fs, hfiles, ?_⟩
    obtain ⟨e, hwrite⟩ | ⟨place, hopen, hwrite⟩ :=
      Disk.write_cases { d with files := fs } path (.ok bytes)
    · rw [hwrite]
      exact .inl ⟨_, rfl⟩
    · rw [hwrite]
      exact .inr ⟨place, hopen, rfl⟩

/-- Nothing is shown unless the file has been written. -/
theorem emit_eq_or (hdata : r.data = .ok bytes) (htotal : Numeral.isPrintable r.total) (d : Disk)
    (path : Text) :
    ∃ fs, Made d.files fs (Path.parent path) none ∧
      ((∃ e, r.emit d path = ⟨fs, [], [], .error e⟩) ∨
        ∃ place, fs.openForWriting path = .ok place ∧
          r.emit d path = ⟨fs.put place (.file bytes), [.wroteReport path], r.summary path,
            .ok r.exitStatus⟩) := by
  obtain ⟨fs, hmade, ⟨e, hwrite⟩ | ⟨place, hopen, hwrite⟩⟩ := write_eq_or hdata d path
  · refine ⟨fs, hmade, .inl ⟨e, ?_⟩⟩
    rw [emit, hwrite]
  · refine ⟨fs, hmade, .inr ⟨place, hopen, ?_⟩⟩
    rw [emit, hwrite, told, if_pos htotal]

end Report

/-! ## Runs -/

namespace Gate

/-- A run that got so far as to put its report out. -/
structure Scanned (w : World) (arguments : List Text) (plan : Plan) (paths : List Text)
    (report : Report) : Prop where
  accepted : ∃ o, Options.ofCommandLine arguments = .ok o ∧ o.plan w.environment = .ok plan
  listed : (plan.provider.list w.disk w.git).result = .ok paths
  scanned : (Scan.run plan.workers w.disk.scan paths).result = .ok report

variable {w : World} {arguments : List Text} {plan : Plan} {paths : List Text} {report : Report}

/-- A run leaves and shows what putting its report out does, after the banner, and ends with the
status of it, or with 1 for a failure of the file system. -/
theorem Scanned.run_eq (h : Scanned w arguments plan paths report) :
    (run w arguments).files = (report.emit w.disk plan.reportPath).files ∧
      (run w arguments).output = (Conclusion.banner plan.provider ++
        (report.emit w.disk plan.reportPath).shown).marked ∧
      (∀ n, (report.emit w.disk plan.reportPath).outcome = .ok n →
        (run w arguments).ending = .status n) ∧
      ∀ e, (report.emit w.disk plan.reportPath).outcome = .error (.access (.system e)) →
        (run w arguments).ending = .status 1 := by
  obtain ⟨o, hoptions, hplan⟩ := h.accepted
  obtain ⟨log, hcarry⟩ := carryOut_of_list h.listed
  obtain ⟨log', hconclusion, hfiles⟩ := finish_of_scan log h.scanned
  rw [run_of_plan hoptions hplan, hcarry, hfiles, hconclusion]
  cases hemit : (report.emit w.disk plan.reportPath).outcome with
  | ok status =>
    refine ⟨rfl, rfl, ?_, nofun⟩
    intro n hn
    rw [← Except.ok.inj hn]
    rfl
  | error e =>
    rw [Report.shown_of_emit_error hemit]
    refine ⟨rfl, ?_, nofun, ?_⟩
    · rcases e with (e | b) | _ | _ <;> rfl
    · intro e' he
      obtain rfl := Except.error.inj he
      rfl

end Gate

open FileSystem in
/-- **A report is put out as a whole or not at all.**  Take a report whose texts come from reading
bytes and whose numbers can be written, any tree with any faults, and any path.  If the report can
be put out, the path opens a file with exactly the bytes of its text, and its summary is shown.  If
not, nothing is shown and no file has changed.  In both cases everything else is there still with
what it holds, and what is new is a directory on the way to the report.  A run that cannot put its
report out for a failure of the file system shows its banner and nothing else, and ends with
status 1. -/
theorem Report.emit_whole_or_nothing {r : Report} (htexts : ∀ t ∈ r.toJson.texts, Utf8.IsRead t)
    (hnumbers : ∀ n ∈ r.numbers, Numeral.isPrintable n) (htotal : Numeral.isPrintable r.total) :
    (∀ d path,
      (∃ bytes place, (r.emit d path).outcome = .ok r.exitStatus ∧
        Utf8.encode? r.render = some bytes ∧ (r.emit d path).files.Opens path place ∧
        (r.emit d path).files.root.get? place = some (.file bytes) ∧
        (r.emit d path).shown = r.summary path ∧
        Made d.files (r.emit d path).files (Path.parent path) (some place)) ∨
      ∃ e, (r.emit d path).outcome = .error e ∧ (r.emit d path).shown = [] ∧
        Made d.files (r.emit d path).files (Path.parent path) none) ∧
    ∀ w arguments plan paths e, Gate.Scanned w arguments plan paths r →
      (r.emit w.disk plan.reportPath).outcome = .error (.access (.system e)) →
        (Gate.run w arguments).ending = .status 1 ∧
          (Gate.run w arguments).output = (Conclusion.banner plan.provider).marked ∧
          (Gate.run w arguments).files = (r.emit w.disk plan.reportPath).files := by
  obtain ⟨bytes, hbytes⟩ : ∃ bytes, Utf8.encode? r.render = some bytes := by
    obtain ⟨bytes, hread⟩ := isRead_render htexts
    rw [← hread]
    exact ⟨bytes, Utf8.encode?_decodeEscaped bytes⟩
  have hdata : r.data = .ok bytes := data_eq_ok_iff.mpr ⟨hnumbers, hbytes⟩
  constructor
  · intro d path
    obtain ⟨fs, hmade, ⟨e, hemit⟩ | ⟨place, hopen, hemit⟩⟩ := emit_eq_or hdata htotal d path
    · right
      rw [hemit]
      exact ⟨e, rfl, rfl, hmade⟩
    · left
      obtain ⟨hopens, hget⟩ := opens_of_openForWriting hopen bytes
      obtain ⟨hput, hkeeps⟩ := made_put_file hopen bytes (Path.parent path)
      rw [hemit]
      exact ⟨bytes, place, rfl, hbytes, hopens, hget, rfl, hmade.trans hput hkeeps (.refl _)⟩
  · intro w arguments plan paths e hscanned hfailed
    obtain ⟨hfiles, houtput, -, hstatus⟩ := hscanned.run_eq
    refine ⟨hstatus e hfailed, ?_, hfiles⟩
    rw [houtput, shown_of_emit_error hfailed, List.append_nil]

/-- A file with an override, and a directory with the report of an earlier run in it. -/
def Gate.reportedWorld : World :=
  { disk := {
      files := {
        root := .dir [([0x61], .file [0xE2, 0x80, 0xAE]),
          ([0x64], .dir [([0x72], .file [0x7B, 0x7D])])]
        working := [] } }
    git := .notStarted .noEntry }

/-- A report on one override, with its offset and the total. -/
def Gate.overrideAt (position : Nat) (total : Int) : Report :=
  { files := [(lit "a", [.ofChar (.ofNat 0x202E) (lit "RLO (Right-to-Left Override)") position 1])]
    total }

/-- Puts a report out over the earlier one. -/
def Gate.putOver (r : Report) : Emitted := r.emit Gate.reportedWorld.disk (lit "d/r")

theorem Gate.isRead_overrideAt (position : Nat) (total : Int) :
    ∀ t ∈ (overrideAt position total).toJson.texts, Utf8.IsRead t := by
  apply Report.isRead_texts
  · have hpath : Utf8.IsAscii (lit "a") := by decide
    exact List.forall_mem_singleton.mpr (Utf8.isRead_of_ascii hpath)
  · intro entry hentry f hf
    obtain rfl := List.mem_singleton.mp hentry
    obtain rfl := List.mem_singleton.mp hf
    exact ⟨_, _, _, _, by decide, rfl⟩

/-- The report cannot be put in the place of a directory, but over the earlier one. -/
theorem Report.emit_whole_or_nothing_reportedWorld :
    ((Gate.overrideAt 0 1).emit Gate.reportedWorld.disk (lit "d")).outcome =
        .error (.access (.system ⟨.isDirectory, lit "d"⟩)) ∧
      ((Gate.overrideAt 0 1).emit Gate.reportedWorld.disk (lit "d")).shown = [] ∧
      ((Gate.overrideAt 0 1).emit Gate.reportedWorld.disk (lit "d")).files.root.get?
        [[0x64], [0x72]] = some (.file [0x7B, 0x7D]) ∧
      (Gate.run Gate.reportedWorld [lit "a", lit "--report", lit "d"]).ending = .status 1 ∧
      (Gate.putOver (Gate.overrideAt 0 1)).outcome = .ok 1 ∧
      (Gate.putOver (Gate.overrideAt 0 1)).shown = (Gate.overrideAt 0 1).summary (lit "d/r") ∧
      ∃ bytes, Utf8.encode? (Gate.overrideAt 0 1).render = some bytes ∧
        (Gate.putOver (Gate.overrideAt 0 1)).files.read (lit "d/r") = .ok bytes := by
  let plan : Plan :=
    { provider := .given [lit "a"], workers := 1, reportPath := lit "d", verbosity := 0 }
  have hscanned : Gate.Scanned Gate.reportedWorld [lit "a", lit "--report", lit "d"] plan
      [lit "a"] (Gate.overrideAt 0 1) :=
    { accepted := ⟨_, rfl, rfl⟩
      listed := rfl
      scanned := by decide +kernel }
  have hfailed : ((Gate.overrideAt 0 1).emit Gate.reportedWorld.disk (lit "d")).outcome =
      .error (.access (.system ⟨.isDirectory, lit "d"⟩)) := by decide +kernel
  have hwritten : (Gate.putOver (Gate.overrideAt 0 1)).outcome = .ok 1 := by decide +kernel
  obtain ⟨hemit, hrun⟩ := Report.emit_whole_or_nothing (Gate.isRead_overrideAt 0 1)
    (by decide +kernel) (by decide +kernel)
  obtain ⟨bytes, place, hok, -⟩ | ⟨e, -, hnothing, hmade⟩ :=
    hemit Gate.reportedWorld.disk (lit "d")
  · rw [hfailed] at hok
    cases hok
  obtain ⟨bytes, place, -, hbytes, hopens, hget, hshown, -⟩ | ⟨e, herror, -, -⟩ :=
    hemit Gate.reportedWorld.disk (lit "d/r")
  · obtain ⟨b, hb, halike⟩ := hmade.kept [[0x64], [0x72]] _ nofun rfl
    rw [halike.eq_of_file] at hb
    have hread := FileSystem.read_eq_ok_iff.mpr
      (FileSystem.statText_eq_ok_iff.mpr ⟨place, hopens, hget⟩)
    exact ⟨hfailed, hnothing, hb, (hrun _ _ _ _ _ hscanned hfailed).1, hwritten, hshown, bytes,
      hbytes, hread⟩
  · cases herror.symm.trans hwritten

/-- A number that is too long to be written is noticed late.  As an offset it leaves the file empty,
and as the total it has nothing shown when the file has been written already. -/
theorem Report.emit_tooManyDigits_reportedWorld :
    (∀ position total, ∀ t ∈ (Gate.overrideAt position total).toJson.texts, Utf8.IsRead t) ∧
    Gate.reportedWorld.disk.files.read (lit "d/r") = .ok [0x7B, 0x7D] ∧
    ((Gate.putOver (Gate.overrideAt (10 ^ Numeral.digitLimit) 1)).outcome =
        .error .tooManyDigits ∧
      (Gate.putOver (Gate.overrideAt (10 ^ Numeral.digitLimit) 1)).files.read (lit "d/r") =
        .ok []) ∧
    (Gate.putOver (Gate.overrideAt 0 (10 ^ Numeral.digitLimit : Nat))).outcome =
        .error .tooManyDigits ∧
      (Gate.putOver (Gate.overrideAt 0 (10 ^ Numeral.digitLimit : Nat))).shown = [] ∧
      (Gate.putOver (Gate.overrideAt 0 (10 ^ Numeral.digitLimit : Nat))).files.read (lit "d/r") =
        .ok (Gate.overrideAt 0 1).stored ∧
      (Gate.overrideAt 0 1).stored ≠ [0x7B, 0x7D] := by
  have htakes : Gate.reportedWorld.disk.Takes (lit "d/r") [[0x64], [0x72]] :=
    ⟨.inr (by decide +kernel), rfl, by decide +kernel⟩
  have hread (r : Report) : (Gate.putOver r).files.read (lit "d/r") = .ok r.stored := by
    rw [Gate.putOver, (r.emit_of_takes htakes).1]
    exact htakes.read r.stored
  have hfar : (Gate.overrideAt (10 ^ Numeral.digitLimit) 1).data = .error .tooManyDigits :=
    Report.data_of_not_isPrintable List.mem_cons_self Numeral.not_isPrintable_pow
  have hdata (total : Int) : (Gate.overrideAt 0 total).data = (Gate.overrideAt 0 1).data := rfl
  have hsettled : (Gate.overrideAt 0 (10 ^ Numeral.digitLimit : Nat)).settled (lit "d/r") =
      ([], .error .tooManyDigits) := by
    have hok : (Gate.overrideAt 0 1).data = .ok (Gate.overrideAt 0 1).stored := by decide +kernel
    rw [Report.settled, hdata, hok]
    exact if_neg Numeral.not_isPrintable_pow
  refine ⟨Gate.isRead_overrideAt, by decide +kernel, ⟨?_, ?_⟩, ?_, ?_, ?_, by decide +kernel⟩
  · rw [Gate.putOver, (Report.emit_of_takes _ htakes).2.2, Report.settled, hfar]
  · rw [hread, Report.stored, hfar]
    rfl
  · rw [Gate.putOver, (Report.emit_of_takes _ htakes).2.2, hsettled]
  · rw [Gate.putOver, (Report.emit_of_takes _ htakes).2.1, hsettled]
  · rw [hread, Report.stored, hdata, Report.stored]

end HiddenText
