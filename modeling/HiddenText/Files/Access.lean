import HiddenText.Files.Lookup

/-!
# Reading and writing

The operations on files by path.  The ones that change the tree give the new tree with their
outcome: `createDirectories` keeps the directories that it made before it failed, `write` changes
nothing when it fails to open the file.  `createDirectories` calls itself for the directory above,
and there is a bound on how deep its calls may nest.
-/

namespace HiddenText

/-- A tree after an operation, with the outcome of it. -/
structure Changed (α : Type) (ε : Type := AccessError) where
  files : FileSystem
  outcome : Except ε α

/-- A change on the way to writing a file. -/
def Changed.toWrite {α : Type} (c : Changed α) : Changed α WriteError :=
  ⟨c.files, c.outcome.mapError .access⟩

namespace FileSystem

def fail (cause : Cause) (path : Text) : AccessError := .system ⟨cause, path⟩

/-- The bytes of a file. -/
def read (fs : FileSystem) (path : Text) : Except AccessError Bytes :=
  match Path.toBytes path with
  | .error p => .error (.badText p)
  | .ok bytes =>
    match fs.stat bytes with
    | .error c => .error (fail c path)
    | .ok (.file data) => .ok data
    | .ok (.dir _) => .error (fail .isDirectory path)
    | .ok (.link _) => .error (fail .tooManyLinks path)

def put (fs : FileSystem) (place : Place) (node : Node) : FileSystem :=
  { fs with root := fs.root.set place node }

/-- Opens a file for writing: the place that takes its contents. -/
def openForWriting (fs : FileSystem) (path : Text) : Except AccessError Place :=
  match Path.toBytes path with
  | .error p => .error (.badText p)
  | .ok bytes =>
    match fs.find .create bytes with
    | .error c => .error (fail c path)
    | .ok (.free directory name) => .ok (directory ++ [name])
    | .ok (.found place) =>
      match fs.root.get? place with
      | some (.file _) => .ok place
      | _ => .error (fail .isDirectory path)

/-- Makes the file hold the data, whatever it held before. -/
def write (fs : FileSystem) (path : Text) (data : Bytes) : Changed Unit :=
  match fs.openForWriting path with
  | .error e => ⟨fs, .error e⟩
  | .ok place => ⟨fs.put place (.file data), .ok ()⟩

/-- A path without the slashes at its end. -/
def withoutSlash (bytes : Bytes) : Bytes := (bytes.reverse.dropWhile (· == 0x2F)).reverse

/-- Adds an entry under a name that must be free. -/
def createEntry (fs : FileSystem) (path : Text) (node : Node) : Changed Unit :=
  match Path.toBytes path with
  | .error p => ⟨fs, .error (.badText p)⟩
  | .ok bytes =>
    if bytes.length > Path.lengthLimit then ⟨fs, .error (fail .nameTooLong path)⟩
    else
      let trimmed := withoutSlash bytes
      match fs.find .entry (if trimmed.isEmpty then bytes else trimmed) with
      | .error c => ⟨fs, .error (fail c path)⟩
      | .ok (.found _) => ⟨fs, .error (fail .alreadyExists path)⟩
      | .ok (.free directory name) => ⟨fs.put (directory ++ [name]) node, .ok ()⟩

def createDirectory (fs : FileSystem) (path : Text) : Changed Unit :=
  fs.createEntry path Node.emptyDir

/-- Makes a directory unless there is one. -/
def ensureDirectory (fs : FileSystem) (path : Text) : Changed Unit :=
  match fs.createDirectory path with
  | ⟨fs', .error (.system e)⟩ =>
    if fs'.isDirectory path then ⟨fs', .ok ()⟩ else ⟨fs', .error (.system e)⟩
  | result => result

def dot : Text := lit "."

/-- The parent and the last name of a path, slashes at its end left out. -/
def parentAndBase (path : Text) : Text × Text :=
  if (Path.base path).isEmpty then (Path.parent (Path.parent path), Path.base (Path.parent path))
  else (Path.parent path, Path.base path)

/-- Makes a directory and the missing ones above it, the upper ones first.  That something else
stands where an upper one should be shows only when the directory below it is made.  So many calls
may nest below this one; when one more is needed, nothing has been made yet. -/
def createDirectories (fs : FileSystem) (calls : Nat) (path : Text) : Changed Unit WriteError :=
  let ⟨parent, base⟩ := parentAndBase path
  if parent.isEmpty || base.isEmpty || (fs.node? parent).isSome then
    (fs.ensureDirectory path).toWrite
  else
    match calls with
    | 0 => ⟨fs, .error .tooDeep⟩
    | calls + 1 =>
      match createDirectories fs calls parent with
      | ⟨fs', .error (.access (.system ⟨.alreadyExists, _⟩))⟩ | ⟨fs', .ok ()⟩ =>
        if base = dot then ⟨fs', .ok ()⟩ else (fs'.ensureDirectory path).toWrite
      | result => result

end FileSystem

end HiddenText
