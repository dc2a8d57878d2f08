import HiddenText.Finding

/-!
# Reports

A report holds the findings of every file that has some, in the order in which the files were added,
and their number.  `Report.counts` groups the findings of one file by character.
-/

namespace HiddenText

structure Report where
  files : List (Text × List Finding) := []
  total : Int := 0
  deriving DecidableEq

/-- How often one character was found. -/
structure Tally where
  codepoint : Text
  name : Text
  count : Nat
  deriving DecidableEq

namespace Report

def paths (r : Report) : List Text := r.files.map Prod.fst

/-- Records the findings of a file.  A file without findings leaves no trace, and one that is
already in the report keeps its first findings. -/
def add (r : Report) (path : Text) (findings : List Finding) : Report :=
  if findings.isEmpty || r.paths.contains path then r
  else { files := r.files ++ [(path, findings)], total := r.total + findings.length }

def isClean (r : Report) : Bool := r.total == 0

/-- The status with which a run ends that wrote this report. -/
def exitStatus (r : Report) : Nat := if r.isClean then 0 else 1

/-- Counts one more finding: a new label comes last, under the name of its first finding. -/
def tally (counts : List Tally) (f : Finding) : List Tally :=
  if counts.any (·.codepoint == f.codepoint) then
    counts.map fun t => if t.codepoint == f.codepoint then { t with count := t.count + 1 } else t
  else counts ++ [⟨f.codepoint, f.name, 1⟩]

/-- The labels of the findings in order of first occurrence, with their numbers. -/
def counts (findings : List Finding) : List Tally := findings.foldl tally []

end Report

end HiddenText
