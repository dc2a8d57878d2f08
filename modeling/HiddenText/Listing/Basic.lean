import HiddenText.Log

/-!
# Listings

Where the paths of the files to scan come from, and how finding them can fail.
-/

namespace HiddenText

/-- Why there is no list of files. -/
inductive ListingError
  | gitNotStarted (error : SystemError) (directory : Option Text)
  | gitFailed (complaint : Text) (code : Int) (directory : Option Text)
  | notDirectory (root : Text)
  deriving DecidableEq

def ListingError.message : ListingError → Text
  | .gitNotStarted e _ => lit "cannot run git: " ++ e.message
  | .gitFailed complaint code _ =>
    if complaint.isEmpty then lit "git ls-files exited with status " ++ Numeral.ofInt code
    else complaint
  | .notDirectory root => lit "not a directory: " ++ root

end HiddenText
