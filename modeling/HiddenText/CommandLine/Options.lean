import HiddenText.Text.Quoted

/-!
# Options

What a command line asks for, the switches by which it does, and the ways in which it can be wrong.
-/

namespace HiddenText

/-- The value of an option.  A value attached to its switch that is exactly `--` is dropped, which
leaves an option that is given and has no value. -/
inductive Given (α : Type)
  | value (a : α)
  | dropped
  deriving DecidableEq

structure Options where
  paths : List Text := []
  walk : Option (Given Text) := none
  report : Option (Given Text) := none
  jobs : Option (Given Int) := none
  verbosity : Nat := 0
  deriving DecidableEq

/-- The text that an option sets; an empty or dropped value sets nothing. -/
def Given.text? : Option (Given Text) → Option Text
  | some (.value t) => if t.isEmpty then none else some t
  | _ => none

inductive Switch
  | help
  | walk
  | report
  | jobs
  | verbose
  deriving DecidableEq

namespace Switch

def takesValue : Switch → Bool
  | .walk | .report | .jobs => true
  | .help | .verbose => false

def long : Switch → Text
  | .help => lit "--help"
  | .walk => lit "--walk"
  | .report => lit "--report"
  | .jobs => lit "--jobs"
  | .verbose => lit "--verbose"

def letter? : Switch → Option CodePoint
  | .help => some (CodePoint.ofChar 'h')
  | .jobs => some (CodePoint.ofChar 'j')
  | .verbose => some (CodePoint.ofChar 'v')
  | .walk | .report => none

def all : List Switch := [.help, .walk, .report, .jobs, .verbose]

/-- The switch with a letter. -/
def ofLetter? (c : CodePoint) : Option Switch := all.find? fun s => s.letter? == some c

/-- All spellings of a switch, as messages name it. -/
def display (s : Switch) : Text :=
  match s.letter? with
  | some c => [CodePoint.hyphen, c] ++ CodePoint.slash :: s.long
  | none => s.long

end Switch

/-- What is wrong with a command line. -/
inductive UsageError
  | ambiguous (argument : Text) (candidates : List Switch)
  | missingValue (s : Switch)
  | ignoredValue (s : Switch) (value : Text)
  | invalidNumber (value : Text)
  | unrecognized (arguments : List Text)
  | walkWithPaths
  deriving DecidableEq

def UsageError.message : UsageError → Text
  | .ambiguous argument candidates =>
    lit "ambiguous option: " ++ argument ++ lit " could match "
      ++ Text.join (lit ", ") (candidates.map Switch.long)
  | .missingValue s => lit "argument " ++ s.display ++ lit ": expected one argument"
  | .ignoredValue s value =>
    lit "argument " ++ s.display ++ lit ": ignored explicit argument " ++ value.quoted
  | .invalidNumber value =>
    lit "argument " ++ Switch.jobs.display ++ lit ": invalid int value: " ++ value.quoted
  | .unrecognized arguments =>
    lit "unrecognized arguments: " ++ Text.join [CodePoint.space] arguments
  | .walkWithPaths => lit "--walk cannot be combined with explicit paths"

/-- Why reading a command line stops early. -/
inductive Stop
  | help
  | usage (e : UsageError)
  deriving DecidableEq

end HiddenText
