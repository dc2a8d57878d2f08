import HiddenText.Gate.Run

/-!
# The command line

The gate on the files of this machine.  What a run decides is decided by the functions of
`Gate.Run`; here files are read, listed and written, and what is to be shown is printed.  Git is not
started from here: its list of tracked files, as `git ls-files -z` prints it, is read from standard
input.
-/

namespace HiddenText.Host

/-- The cause with a number.  Some operations give the number negated, in 32 bits. -/
def causeOf (code : UInt32) (text : String) : Cause :=
  let number : Int := if code.toNat < 0x80000000 then code.toNat else 0x100000000 - code.toNat
  let known : List Cause :=
    [.noEntry, .alreadyExists, .notDirectory, .isDirectory, .nameTooLong, .tooManyLinks]
  (known.find? fun c => c.number == number).getD (.reported number (lit text))

/-- The cause that the operating system gave for an error. -/
def cause : IO.Error → Cause
  | .alreadyExists _ n t | .interrupted _ n t | .noFileOrDirectory _ n t | .invalidArgument _ n t
  | .permissionDenied _ n t | .resourceExhausted _ n t | .inappropriateType _ n t
  | .noSuchThing _ n t | .otherError n t | .resourceBusy n t | .resourceVanished n t
  | .unsupportedOperation n t | .hardwareFault n t | .unsatisfiedConstraints n t
  | .illegalOperation n t | .protocolError n t | .timeExpired n t => causeOf n t
  | .unexpectedEof => .reported 5 (lit "Input/output error")
  | .userError t => .reported 5 (lit t)

/-- A text as a string, if it has no surrogates. -/
def string? (t : Text) : Option String :=
  if t.any CodePoint.isSurrogate then none
  else some (String.ofList (t.map fun c => Char.ofNat c.val))

def bytes (data : ByteArray) : Bytes := data.data.toList

/-- Does something to a path, and gives the failure as one of the path. -/
def access {α : Type} (path : Text) (act : String → IO α) : IO (Except AccessError α) := do
  match Path.toBytes path, string? path with
  | .error b, _ => return .error (.badText b)
  | .ok _, none => return .error (FileSystem.fail .noEntry path)
  | .ok _, some s =>
    match ← (act s).toBaseIO with
    | .ok a => return .ok a
    | .error e => return .error (FileSystem.fail (cause e) path)

def read (path : Text) : IO (Except AccessError Bytes) :=
  access path fun s => return bytes (← IO.FS.readBinFile s)

def isDirectory (path : Text) : IO Bool := do
  match ← access path fun s => do (← IO.FS.realPath s).isDir with
  | .ok yes => return yes
  | .error _ => return false

/-- Makes a directory unless there is one. -/
def ensureDirectory (path : Text) : IO (Except AccessError Unit) := do
  match ← access path fun s => IO.FS.createDir s with
  | .error (.system e) => if ← isDirectory path then return .ok () else return .error (.system e)
  | result => return result

/-- Makes a directory and the missing ones above it, as `FileSystem.createDirectories` does. -/
def createDirectories (calls : Nat) (path : Text) : IO (Except WriteError Unit) := do
  let (parent, base) := FileSystem.parentAndBase path
  let there ← access parent fun s => IO.FS.realPath s
  if parent.isEmpty || base.isEmpty || there.isOk then
    return (← ensureDirectory path).mapError .access
  else
    match calls with
    | 0 => return .error .tooDeep
    | calls + 1 =>
      match ← createDirectories calls parent with
      | .error (.access (.system ⟨.alreadyExists, _⟩)) | .ok () =>
        if base = FileSystem.dot then return .ok ()
        else return (← ensureDirectory path).mapError .access
      | result => return result

/-- Writes the report file, in directories made as needed. -/
def write (r : Report) (path : Text) : IO (Except WriteError Unit) := do
  let directory := Path.parent path
  let made ← if directory.isEmpty then pure (.ok ())
    else createDirectories ({} : Depths).made directory
  match made with
  | .error e => return .error e
  | .ok () =>
    match ← access path fun s =>
        IO.FS.writeBinFile s ⟨(r.data.toOption.getD []).toArray⟩ with
    | .error e => return .error (.access e)
    | .ok () => return r.data.map fun _ => ()

/-- What was found below a directory: its entries, without the contents of files, the directories
that could not be listed, and where links lead. -/
structure Found where
  entries : List (Name × Node) := []
  unreadable : List (Text × Cause) := []
  links : List (Text × Except Cause Node) := []

partial def search (shown : Text) (directory : String) : IO Found := do
  match ← (do (← IO.FS.realPath directory).readDir : IO _).toBaseIO with
  | .error e => return { unreadable := [(shown, cause e)] }
  | .ok listed =>
    let mut found : Found := {}
    for entry in listed do
      let name := bytes entry.fileName.toUTF8
      let path := Path.child shown (Utf8.decodeEscaped name)
      match (← entry.path.symlinkMetadata).type with
      | .dir =>
        let below ← search path entry.path.toString
        found := {
          entries := (name, Node.dir below.entries) :: found.entries
          unreadable := below.unreadable ++ found.unreadable
          links := below.links ++ found.links }
      | .symlink =>
        let target := match ← entry.path.metadata.toBaseIO with
          | .ok m => .ok (if m.type matches .file then .file [] else Node.emptyDir)
          | .error e => .error (cause e)
        found := { found with
          entries := (name, Node.link []) :: found.entries
          links := (path, target) :: found.links }
      | .file => found := { found with entries := (name, Node.file []) :: found.entries }
      | .other => pure ()
    return found

def walk (root : Text) : IO (Logged (Except WalkError (List Text))) := do
  match ← isDirectory root, string? root with
  | true, some s =>
    let found ← search root s
    let walker : Walker :=
      { listingError? := fun path => (found.unreadable.lookup path).map (⟨·, path⟩)
        follow := fun path => (found.links.lookup path).getD (.error .noEntry) }
    return walker.walk ({} : Depths).walked root found.entries
  | _, _ => return ⟨[], .error (.listing (.notDirectory root))⟩

/-- All that standard input holds. -/
partial def readAll (input : IO.FS.Stream) (sofar : ByteArray) : IO ByteArray := do
  let chunk ← input.read 65536
  if chunk.isEmpty then return sofar else readAll input (sofar ++ chunk)

/-- The list of files from a provider. -/
def list : Provider → IO (Logged (Except WalkError (List Text)))
  | .walk root => walk root
  | .given paths => return ⟨[], .ok paths⟩
  | .git => do
    let output ← readAll (← IO.getStdin) ByteArray.empty
    let ⟨log, result⟩ := (GitOutcome.finished (bytes output) [] 0).list none
    return ⟨log, result.mapError .listing⟩

def environment : IO Environment := do
  let mut env : Environment := []
  for key in [Settings.reportVariable, Settings.workersVariable] do
    if let some name := string? key then
      if let some value ← IO.getEnv name then
        env := (key, lit value) :: env
  return env

/-- Shows a conclusion, and gives the status to end with. -/
def conclude (c : Conclusion) : IO UInt32 := do
  IO.print ((string? c.output).getD "")
  IO.eprint ((string? c.complaints).getD "")
  match c.ending with
  | .usage status | .status status => return status.toUInt32
  | .failed f =>
    IO.eprintln ((string? f.message.marked).getD "")
    return 1

def carryOut (plan : Plan) : IO Conclusion := do
  let ⟨log, result⟩ ← list plan.provider
  match result with
  | .error e => return .ofWalkError plan.verbosity log e
  | .ok paths =>
    let contents ← (Scan.distinct paths).mapM fun path => return (path, ← read path)
    let scanner : Scan.Scanner BadText := fun path =>
      Scan.ofRead path ((contents.lookup path).getD (.error (FileSystem.fail .noEntry path)))
    let ⟨scanLog, scanned⟩ := Scan.run plan.workers scanner paths
    match scanned with
    | .error b => return .ofFailure plan (log ++ scanLog) (.badText b)
    | .ok report =>
      let log := log ++ scanLog
      match ← write report plan.reportPath with
      | .error e => return .ofReport plan log [] (.error e)
      | .ok () =>
        let (shown, outcome) := report.told plan.reportPath
        return .ofReport plan (log ++ [.wroteReport plan.reportPath]) shown outcome

end HiddenText.Host

open HiddenText in
def main (arguments : List String) : IO UInt32 := do
  match Options.ofCommandLine (arguments.map lit) with
  | .error stop => Host.conclude (.ofStop stop)
  | .ok o =>
    match o.plan (← Host.environment) with
    | .error e => Host.conclude (.ofWorkersError e)
    | .ok plan => Host.conclude (← Host.carryOut plan)
