import HiddenText.Json.Basic
import HiddenText.Report.Basic

/-!
# Reports as JSON

A report is an object with a field for each file; a finding is an object with five fields.
-/

namespace HiddenText

def Finding.toJson (f : Finding) : Json :=
  .object [
    (lit "char", .text f.char),
    (lit "codepoint", .text f.codepoint),
    (lit "name", .text f.name),
    (lit "position", .int f.position),
    (lit "line", .int f.line)]

namespace Report

def toJson (r : Report) : Json :=
  .object (r.files.map fun (path, findings) => (path, .array (findings.map Finding.toJson)))

/-- The text of the report file. -/
def render (r : Report) : Text := r.toJson.render

end Report

end HiddenText
