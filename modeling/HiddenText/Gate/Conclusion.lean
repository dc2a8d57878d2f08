import HiddenText.CommandLine.Usage
import HiddenText.Gate.Plan
import HiddenText.Report.Summary

/-!
# Conclusions

How a run ends, and what it shows: its output, and its complaints with the log records before them.
A clean report ends with status 0, findings and failures with 1, a usage error with 2.
-/

namespace HiddenText

/-- A failure that no part of a run handles. -/
inductive Failure
  | link (e : SystemError)
  | badText (b : BadText)
  /-- The number of jobs is given without a value. -/
  | jobsWithoutValue
  | tooDeep
  | tooManyDigits
  deriving DecidableEq

def Failure.message : Failure → Text
  | .link e => e.message
  | .badText b => b.message
  | .jobsWithoutValue => lit "'<' not supported between instances of 'list' and 'int'"
  | .tooDeep => lit "maximum recursion depth exceeded"
  | .tooManyDigits =>
    lit "Exceeds the limit (" ++ Numeral.ofNat Numeral.digitLimit
      ++ lit " digits) for integer string conversion; "
      ++ lit "use sys.set_int_max_str_digits() to increase the limit"

inductive Ending
  /-- The run stopped while reading the command line. -/
  | usage (status : Nat)
  | status (n : Nat)
  | failed (f : Failure)
  deriving DecidableEq

structure Conclusion where
  ending : Ending
  output : Text
  complaints : Text
  deriving DecidableEq

namespace Conclusion

/-- The log records that are shown, then a last complaint. -/
def complaintsOf (verbosity : Nat) (log : List Event) (last : List Text) : Text :=
  (Text.ofLines ((log.filter (Event.shownAt verbosity)).map Event.line ++ last)).marked

def ofStop (stop : Stop) : Conclusion :=
  { ending := .usage stop.status, output := stop.output, complaints := stop.complaint }

/-- A run without a number of workers. -/
def ofWorkersError : WorkersError → Conclusion
  | .settings e =>
    ⟨.status 1, [], complaintsOf 0 [] [lit "Error: " ++ e.message]⟩
  | .notPositive =>
    ⟨.status 1, [], complaintsOf 0 [] [lit "Error: --jobs must be a positive integer"]⟩
  | .withoutValue => ⟨.failed .jobsWithoutValue, [], []⟩

/-- A run without a list of files. -/
def ofWalkError (verbosity : Nat) (log : List Event) : WalkError → Conclusion
  | .listing e =>
    ⟨.status 1, [], complaintsOf verbosity log [lit "Error getting file list: " ++ e.message]⟩
  | .link e => ⟨.failed (.link e), [], complaintsOf verbosity log []⟩
  | .tooDeep => ⟨.failed .tooDeep, [], complaintsOf verbosity log []⟩

/-- What is shown before the scan. -/
def banner (p : Provider) : Text :=
  Text.ofLines
    [lit "Scanning " ++ p.description ++ lit " for unsafe Unicode control characters...", []]

/-- A run that got to the scan, with what it shows after the banner. -/
def afterBanner (plan : Plan) (log : List Event) (ending : Ending) (shown : Text)
    (last : List Text) : Conclusion :=
  { ending
    output := (banner plan.provider ++ shown).marked
    complaints := complaintsOf plan.verbosity log last }

/-- A run that failed at the scan, or when it had a report. -/
def ofFailure (plan : Plan) (log : List Event) (f : Failure) : Conclusion :=
  afterBanner plan log (.failed f) [] []

/-- A run with a report, given what putting it out has shown and come to. -/
def ofReport (plan : Plan) (log : List Event) (shown : Text) : Except WriteError Nat → Conclusion
  | .ok status => afterBanner plan log (.status status) shown []
  | .error (.access (.system e)) =>
    afterBanner plan log (.status 1) []
      [lit "Error writing report " ++ plan.reportPath ++ lit ": " ++ e.message]
  | .error (.access (.badText b)) => ofFailure plan log (.badText b)
  | .error .tooDeep => ofFailure plan log .tooDeep
  | .error .tooManyDigits => ofFailure plan log .tooManyDigits

end Conclusion

end HiddenText
