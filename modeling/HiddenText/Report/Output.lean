import HiddenText.Files.Disk
import HiddenText.Log
import HiddenText.Report.Json
import HiddenText.Report.Summary

/-!
# Putting a report out

The report file is written first, even when the report is clean; only then is there a summary to
show (`Report.emit`).  What cannot be written of the report is noticed late: when its file is open,
or, for the total, when the file is complete.
-/

namespace HiddenText

/-- A disk's files after an operation, with the outcome and the events of it. -/
structure Written where
  files : FileSystem
  log : List Event
  outcome : Except WriteError Unit

/-- What putting a report out comes to: the files and the events, what is shown, and the status. -/
structure Emitted where
  files : FileSystem
  log : List Event
  shown : Text
  outcome : Except WriteError Nat

namespace Report

/-- The numbers in the report file. -/
def numbers (r : Report) : List Int :=
  r.files.flatMap fun (_, findings) => findings.flatMap fun f => [f.position, f.line]

/-- What the report file is to hold. -/
def data (r : Report) : Except WriteError Bytes :=
  if r.numbers.all Numeral.isPrintable then
    match Utf8.encode? r.render with
    | some bytes => .ok bytes
    | none => .error (.access (.badText .unencodable))
  else .error .tooManyDigits

/-- Writes the report file, in directories made as needed. -/
def write (r : Report) (d : Disk) (path : Text) : Written :=
  let directory := Path.parent path
  let made : Changed Unit WriteError :=
    if directory.isEmpty then ⟨d.files, .ok ()⟩
    else d.files.createDirectories d.depths.made directory
  match made with
  | ⟨fs, .error e⟩ => ⟨fs, [], .error e⟩
  | ⟨fs, .ok ()⟩ =>
    match Disk.write { d with files := fs } path r.data with
    | ⟨fs', .error e⟩ => ⟨fs', [], .error e⟩
    | ⟨fs', .ok ()⟩ => ⟨fs', [.wroteReport path], .ok ()⟩

/-- What is shown of a report whose file has been written, and its status. -/
def told (r : Report) (path : Text) : Text × Except WriteError Nat :=
  if Numeral.isPrintable r.total then (r.summary path, .ok r.exitStatus)
  else ([], .error .tooManyDigits)

/-- Writes the report file and shows the summary, which gives the status of the report. -/
def emit (r : Report) (d : Disk) (path : Text) : Emitted :=
  match r.write d path with
  | ⟨fs, log, .error e⟩ => ⟨fs, log, [], .error e⟩
  | ⟨fs, log, .ok ()⟩ => ⟨fs, log, (r.told path).1, (r.told path).2⟩

end Report

end HiddenText
