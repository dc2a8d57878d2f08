import HiddenText.Files.Access

/-!
# Disks

A disk is a file system with faults: paths at which opening a file or listing a directory fails, for
reasons that the tree does not show (permissions, broken media).  A fault comes before everything
else.  It also says how deep the calls may nest that work along a path, one inside the other for
each name: there is a bound for that, and where exactly it lies depends on the calls that are under
way already.  One bound stands for all directories, whether the innermost one takes further calls,
to be sorted or to be logged, or none.
-/

namespace HiddenText

structure Faults where
  /-- Files that cannot be opened, for reading or writing. -/
  files : List (Text × Cause) := []
  /-- Directories that cannot be listed. -/
  directories : List (Text × Cause) := []

structure Depths where
  /-- Directories that a walk may have entered, one in the other. -/
  walked : Nat := 990
  /-- Missing directories, one in the other, above the last one that is made. -/
  made : Nat := 990

structure Disk where
  files : FileSystem
  faults : Faults := {}
  depths : Depths := {}

namespace Disk

/-- The bytes of a file. -/
def read (d : Disk) (path : Text) : Except AccessError Bytes :=
  match d.faults.files.lookup path with
  | some c => .error (FileSystem.fail c path)
  | none => d.files.read path

/-- Makes the file hold the data.  That there are none is noticed when the file is empty already. -/
def write (d : Disk) (path : Text) (data : Except WriteError Bytes) : Changed Unit WriteError :=
  match d.faults.files.lookup path with
  | some c => ⟨d.files, .error (.access (FileSystem.fail c path))⟩
  | none =>
    match d.files.openForWriting path with
    | .error e => ⟨d.files, .error (.access e)⟩
    | .ok place =>
      match data with
      | .ok bytes => ⟨d.files.put place (.file bytes), .ok ()⟩
      | .error e => ⟨d.files.put place (.file []), .error e⟩

/-- Why a directory cannot be listed under a path: a fault, or the length of the path. -/
def listingError? (d : Disk) (path : Text) : Option SystemError :=
  match d.faults.directories.lookup path with
  | some c => some ⟨c, path⟩
  | none =>
    match Path.toBytes path with
    | .ok bytes =>
      if bytes.length > Path.lengthLimit then some ⟨.nameTooLong, path⟩ else none
    | .error _ => none

end Disk

end HiddenText
