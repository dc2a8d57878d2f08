import HiddenText.CommandLine.Parser
import HiddenText.Listing.Git
import HiddenText.Listing.Walk
import HiddenText.Settings

/-!
# Plans

What a run is going to do, settled from the command line and the environment before any file is
touched: where the list of files comes from, how many workers scan them, where the report goes, and
how much of the log is shown.
-/

namespace HiddenText

/-- Where the list of files comes from. -/
inductive Provider
  | given (paths : List Text)
  | walk (root : Text)
  | git
  deriving DecidableEq

namespace Provider

/-- Paths come first, then a directory, and git when neither is given. -/
def ofOptions (o : Options) : Provider :=
  if o.paths.isEmpty then
    match Given.text? o.walk with
    | some root => .walk root
    | none => .git
  else .given o.paths

def description : Provider → Text
  | .given _ => lit "the given files"
  | .walk root => lit "files under " ++ root
  | .git => lit "git-tracked files"

/-- How often git is started to get the list. -/
def gitStarts : Provider → Nat
  | .git => 1
  | .given _ | .walk _ => 0

/-- The list of files. -/
def list (p : Provider) (d : Disk) (git : GitOutcome) : Logged (Except WalkError (List Text)) :=
  match p with
  | .given paths => ⟨[], .ok paths⟩
  | .walk root => d.walk root
  | .git =>
    let ⟨log, result⟩ := git.list none
    ⟨log, result.mapError .listing⟩

end Provider

/-- Why there is no number of workers. -/
inductive WorkersError
  | settings (e : SettingsError)
  | notPositive
  | withoutValue
  deriving DecidableEq

structure Plan where
  provider : Provider
  workers : Int
  reportPath : Text
  verbosity : Nat
  deriving DecidableEq

namespace Options

/-- The report path: from the command line, or else from the environment. -/
def reportPath (o : Options) (env : Environment) : Text :=
  (Given.text? o.report).getD env.reportPath

/-- The number of workers: from the command line, or else from the environment. -/
def workers (o : Options) (env : Environment) : Except WorkersError Int :=
  match o.jobs with
  | some (.value n) => if n < 1 then .error .notPositive else .ok n
  | some .dropped => .error .withoutValue
  | none => env.workers.mapError .settings

def plan (o : Options) (env : Environment) : Except WorkersError Plan :=
  (o.workers env).map fun workers =>
    { provider := .ofOptions o, workers, reportPath := o.reportPath env, verbosity := o.verbosity }

/-- What a command line asks for; paths and a directory to walk exclude each other. -/
def ofCommandLine (arguments : List Text) : Except Stop Options :=
  match parse arguments with
  | .error stop => .error stop
  | .ok o =>
    if !o.paths.isEmpty && (Given.text? o.walk).isSome then .error (.usage .walkWithPaths)
    else .ok o

end Options

end HiddenText
