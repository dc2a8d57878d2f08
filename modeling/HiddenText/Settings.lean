import HiddenText.Text.Quoted

/-!
# Settings

Two environment variables set the report path and the number of workers.  Blanks at their ends do
not count, and an empty variable is as good as none.  A number of workers that is no positive
integer is refused, never replaced by a guess.
-/

namespace HiddenText

/-- The environment variables that are set, by name. -/
abbrev Environment := List (Text × Text)

/-- The number of workers is set to something else than a positive integer. -/
structure SettingsError where
  raw : Text
  deriving DecidableEq

namespace Settings

def reportVariable : Text := lit "BIDISCAN_REPORT_PATH"

def workersVariable : Text := lit "BIDISCAN_WORKERS"

def defaultReportPath : Text := lit "docs/ops/reports/_tmp_bidi_scan.json"

end Settings

def SettingsError.message (e : SettingsError) : Text :=
  Settings.workersVariable ++ lit " must be a positive integer, got " ++ e.raw.quoted

namespace Environment

/-- A variable without the blanks at its ends; empty if it is not set. -/
def stripped (env : Environment) (key : Text) : Text :=
  ((env.lookup key).getD []).strip

def reportPath (env : Environment) : Text :=
  let path := env.stripped Settings.reportVariable
  if path.isEmpty then Settings.defaultReportPath else path

def workers (env : Environment) : Except SettingsError Int :=
  let raw := env.stripped Settings.workersVariable
  if raw.isEmpty then .ok 1
  else
    match Numeral.toInt? raw with
    | some n => if n < 1 then .error ⟨raw⟩ else .ok n
    | none => .error ⟨raw⟩

end Environment

end HiddenText
