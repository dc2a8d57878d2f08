import HiddenText.Gate.Conclusion
import HiddenText.Report.Output
import HiddenText.Scan.File
import HiddenText.Scan.Run

/-!
# The gate

A whole run: read the command line, settle the plan, list the files, scan them, put the report out.
Up to the list of files nothing is written, and the report is all that is written then.
-/

namespace HiddenText

/-- What a run depends on besides its command line. -/
structure World where
  disk : Disk
  environment : Environment := []
  git : GitOutcome

/-- How a run ends, and what it leaves and has done. -/
structure Outcome extends Conclusion where
  files : FileSystem
  /-- How often git was started. -/
  gitStarts : Nat := 0
  /-- The files that were opened for reading. -/
  opened : List Text := []

namespace Gate

/-- Scans the listed files and puts the report out. -/
def finish (w : World) (plan : Plan) (log : List Event) (paths : List Text) : Outcome :=
  let opened := Scan.opened plan.workers w.disk.scan paths
  let gitStarts := plan.provider.gitStarts
  let ⟨scanLog, result⟩ := Scan.run plan.workers w.disk.scan paths
  match result with
  | .error b =>
    { Conclusion.ofFailure plan (log ++ scanLog) (.badText b) with
      files := w.disk.files, gitStarts, opened }
  | .ok report =>
    let ⟨files, writeLog, shown, outcome⟩ := report.emit w.disk plan.reportPath
    { Conclusion.ofReport plan (log ++ scanLog ++ writeLog) shown outcome with
      files, gitStarts, opened }

/-- Lists the files and goes on with them. -/
def carryOut (w : World) (plan : Plan) : Outcome :=
  let ⟨log, result⟩ := plan.provider.list w.disk w.git
  match result with
  | .ok paths => finish w plan log paths
  | .error e =>
    { Conclusion.ofWalkError plan.verbosity log e with
      files := w.disk.files, gitStarts := plan.provider.gitStarts }

/-- A whole run. -/
def run (w : World) (arguments : List Text) : Outcome :=
  match Options.ofCommandLine arguments with
  | .error stop => { Conclusion.ofStop stop with files := w.disk.files }
  | .ok o =>
    match o.plan w.environment with
    | .error e => { Conclusion.ofWorkersError e with files := w.disk.files }
    | .ok plan => carryOut w plan

end Gate

end HiddenText
