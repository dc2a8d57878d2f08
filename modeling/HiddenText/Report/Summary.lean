import HiddenText.Report.Basic

/-!
# The summary

What is shown of a report: one line when it is clean, else a block for each file, with a line for
each character found in it, between a header and the totals.
-/

namespace HiddenText

def Tally.line (t : Tally) : Text :=
  lit "   " ++ t.codepoint ++ lit " (" ++ t.name ++ lit "): " ++ Numeral.ofNat t.count ++ lit "x"

namespace Report

def cleanLine : Text := lit "✅ No unsafe Unicode control characters found."

def headerLine (r : Report) : Text :=
  lit "⚠️  Found " ++ Numeral.ofInt r.total ++ lit " unsafe character(s) in "
    ++ Numeral.ofNat r.files.length ++ lit " file(s):"

/-- The lines about one file, the last one empty. -/
def block (path : Text) (findings : List Finding) : List Text :=
  (lit "📄 " ++ path ++ lit ":") :: (counts findings).map Tally.line ++ [[]]

def summaryLines (r : Report) (reportPath : Text) : List Text :=
  if r.isClean then [cleanLine]
  else
    [r.headerLine, []] ++ r.files.flatMap (fun (path, findings) => block path findings)
      ++ [lit "📊 Summary: " ++ Numeral.ofInt r.total ++ lit " total findings",
        lit "📁 JSON report: " ++ reportPath]

/-- The summary, every line ended. -/
def summary (r : Report) (reportPath : Text) : Text :=
  (r.summaryLines reportPath).flatMap fun line => line ++ [CodePoint.newline]

end Report

end HiddenText
