import HiddenText.CommandLine.Usage
import HiddenText.Files.Access

/-!
# Sample files

Six files on which the gate can be tried by hand: four with catalogued characters, one that is not
text, and one that is clean.
-/

namespace HiddenText.Samples

/-- The bytes of a string. -/
def bytes (s : String) : Bytes := (lit s).flatMap Utf8.encodeOne

/-- The names and contents, in the order in which they are made. -/
def all : List (Text × Bytes) := [
  (lit "rlo_filename.txt", bytes "attachment: \u202Etxt.exe\n"),
  (lit "zero_width.py", bytes "user_name = 'a'\nuser\u200B_name = 'b'\nprint(user_name)\n"),
  (lit "bom.md", bytes "\uFEFF# Title\n"),
  (lit "early_return.js", bytes "if (isAdmin) \x7b /* \u2066 \x7d \u2069 return; */ \x7d\n"),
  (lit "image.bin", [0x89, 0x50, 0x4E, 0x47, 0x0D, 0x0A, 0x1A, 0x0A, 0xFF, 0xFE, 0x00]),
  (lit "clean.txt", bytes "nothing to see here\n")]

/-- What came of making the samples; the run fails if a file cannot be written. -/
structure Outcome where
  result : Except AccessError Nat
  output : Text
  complaints : Text
  files : FileSystem

/-- Writes the files one by one and tells of each, up to the first that cannot be written. -/
def create (root : Text) (fs : FileSystem) :
    List (Text × Bytes) → List Text × Changed Unit
  | [] => ([], ⟨fs, .ok ()⟩)
  | (name, data) :: rest =>
    match fs.write (Path.child root name) data with
    | ⟨fs', .error e⟩ => ([], ⟨fs', .error e⟩)
    | ⟨fs', .ok ()⟩ =>
      let (lines, made) := create root fs' rest
      ((lit "  created: " ++ name) :: lines, made)

def entryCount (fs : FileSystem) (root : Text) : Nat :=
  match fs.node? root with
  | some node => node.entries.length
  | none => 0

/-- Makes the samples in the directory that is the first argument. -/
def run (fs : FileSystem) : List Text → Outcome
  | [] => ⟨.ok 1, [], Text.ofLines [lit "Usage: python create_fixtures.py <root_dir>"], fs⟩
  | root :: _ =>
    if fs.isDirectory root then
      match create root fs all with
      | (lines, ⟨fs', .error e⟩) => ⟨.error e, Text.ofLines lines, [], fs'⟩
      | (lines, ⟨fs', .ok ()⟩) =>
        let count := lit "  root contains " ++ Numeral.ofNat (entryCount fs' root) ++ lit " entries"
        ⟨.ok 0, Text.ofLines (lines ++ [count]), [], fs'⟩
    else ⟨.ok 1, [], (Text.ofLines [lit "Root does not exist: " ++ root]).escaped, fs⟩

end HiddenText.Samples
