import HiddenText.CommandLine.Options
import HiddenText.Text.Console

/-!
# Usage and help

What is shown when the reading of a command line stops, laid out for lines of 80 columns.  That the
environment may ask for another width (`COLUMNS`) is left out.
-/

namespace HiddenText

/-- The lines, every one ended. -/
def Text.ofLines (lines : List Text) : Text := lines.flatMap fun line => line ++ [CodePoint.newline]

namespace Usage

def line : Text :=
  lit "usage: bidiscan [-h] [--walk DIR] [--report PATH] [-j JOBS] [-v] [paths ...]"

def help : Text :=
  Text.ofLines [
    line,
    [],
    lit "Scan files for bidi control and invisible Unicode characters (Trojan Source).",
    [],
    lit "positional arguments:",
    lit "  paths                 Files to scan. Defaults to all git-tracked files.",
    [],
    lit "options:",
    lit "  -h, --help            show this help message and exit",
    lit "  --walk DIR            Scan every file under DIR instead of the git index.",
    lit "  --report PATH         JSON report location (env: BIDISCAN_REPORT_PATH).",
    lit "  -j JOBS, --jobs JOBS  Number of files to scan in parallel (env:",
    lit "                        BIDISCAN_WORKERS).",
    lit "  -v, --verbose         Log progress to stderr; repeat for debug output."]

def complaint (e : UsageError) : Text :=
  (Text.ofLines [line, lit "bidiscan: error: " ++ e.message]).escaped

end Usage

namespace Stop

/-- The status with which a run ends that stops while reading its command line. -/
def status : Stop → Nat
  | .help => 0
  | .usage _ => 2

def output : Stop → Text
  | .help => Usage.help
  | .usage _ => []

def complaint : Stop → Text
  | .help => []
  | .usage e => Usage.complaint e

end Stop

end HiddenText
