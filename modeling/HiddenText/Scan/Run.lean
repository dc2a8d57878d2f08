import HiddenText.Log
import HiddenText.Report.Basic
import HiddenText.Scan.Pool

/-!
# Scanning many files

Every path is scanned once, however often it is listed, and the report keeps the order of the list,
whether the files are scanned one after the other or by a pool of workers.  The first path in that
order whose scan fails is the failure of the whole.
-/

namespace HiddenText.Scan

variable {ε : Type}

/-- What scans one file. -/
abbrev Scanner (ε : Type) := Text → Logged (Except ε (List Finding))

/-- The paths without repeats, each at its first place. -/
def distinct (paths : List Text) : List Text := paths.eraseDups

/-- One file after the other, up to the first failure. -/
def sequential (scan : Scanner ε) (paths : List Text) : Logged (Except ε (List (List Finding))) :=
  inTurn (paths.map scan)

/-- By a pool of workers that makes the given moves. -/
def pooled (workers : Int) (moves : List Move) (scan : Scanner ε) (paths : List Text) :
    Logged (Except ε (List (List Finding))) :=
  let results := (Pool.run workers scan (Pool.ofTasks paths) moves).results
  ⟨results.flatMap Logged.log, (inTurn results).result⟩

def inParallel (workers : Int) (paths : List Text) : Bool := 1 < workers && 1 < paths.length

/-- The findings of every path, in the order of the paths. -/
def findings (workers : Int) (scan : Scanner ε) (paths : List Text) :
    Logged (Except ε (List (List Finding))) :=
  if inParallel workers paths then pooled workers (Pool.oneByOne paths.length) scan paths
  else sequential scan paths

def report (paths : List Text) (results : List (List Finding)) : Report :=
  (paths.zip results).foldl (fun r (path, found) => r.add path found) {}

/-- The report on all paths. -/
def run (workers : Int) (scan : Scanner ε) (paths : List Text) : Logged (Except ε Report) :=
  let paths := distinct paths
  match findings workers scan paths with
  | ⟨log, .error e⟩ => ⟨log, .error e⟩
  | ⟨log, .ok results⟩ =>
    let r := report paths results
    ⟨log ++ [.scanned paths.length r.total r.files.length], .ok r⟩

/-- The paths up to the first whose scan fails, that one included. -/
def begun (scan : Scanner ε) : List Text → List Text
  | [] => []
  | path :: rest =>
    match (scan path).result with
    | .ok _ => path :: begun scan rest
    | .error _ => [path]

/-- The paths whose scan is begun in a run. -/
def opened (workers : Int) (scan : Scanner ε) (paths : List Text) : List Text :=
  let paths := distinct paths
  if inParallel workers paths then paths else begun scan paths

end HiddenText.Scan
