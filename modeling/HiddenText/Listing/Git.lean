import HiddenText.Listing.Basic

/-!
# Tracked files

The files that git tracks, as it prints them: each path ended by a null byte, in any encoding.
-/

namespace HiddenText

/-- What came of starting git: it could not be started, or it ended with some output. -/
inductive GitOutcome
  | notStarted (cause : Cause)
  | finished (output errors : Bytes) (code : Int)

namespace GitOutcome

/-- The command whose outcome is taken. -/
def command : List Text := [lit "git", lit "ls-files", lit "-z"]

/-- The paths in an output. -/
def paths (output : Bytes) : List Text :=
  (Text.split (.ofNat 0) (Utf8.decodeEscaped output)).filter fun path => !path.isBlank

/-- The tracked files of a directory. -/
def list (git : GitOutcome) (directory : Option Text) :
    Logged (Except ListingError (List Text)) :=
  match git with
  | .notStarted cause => ⟨[], .error (.gitNotStarted ⟨cause, lit "git"⟩ directory)⟩
  | .finished output errors code =>
    if code ≠ 0 then
      ⟨[], .error (.gitFailed (Utf8.decodeReplaced errors).strip code directory)⟩
    else ⟨[.tracked (paths output).length], .ok (paths output)⟩

end GitOutcome

end HiddenText
