import HiddenText.Text.Quoted
import HiddenText.Text.Utf8

/-!
# Failures of the file system

A system error has a cause and the path at which it arose.  A text that cannot be handed to the file
system at all, because it is a path with a null character or has a surrogate that keeps no byte, is
not a system error: nothing was tried.  Writing a file can fail for other reasons besides.
-/

namespace HiddenText

inductive Cause
  | noEntry
  | alreadyExists
  | notDirectory
  | isDirectory
  | nameTooLong
  | tooManyLinks
  /-- A failure known by its number and text alone. -/
  | reported (number : Int) (text : Text)
  deriving DecidableEq

def Cause.number : Cause → Int
  | .noEntry => 2
  | .alreadyExists => 17
  | .notDirectory => 20
  | .isDirectory => 21
  | .nameTooLong => 36
  | .tooManyLinks => 40
  | .reported number _ => number

def Cause.text : Cause → Text
  | .noEntry => lit "No such file or directory"
  | .alreadyExists => lit "File exists"
  | .notDirectory => lit "Not a directory"
  | .isDirectory => lit "Is a directory"
  | .nameTooLong => lit "File name too long"
  | .tooManyLinks => lit "Too many levels of symbolic links"
  | .reported _ text => text

structure SystemError where
  cause : Cause
  path : Text
  deriving DecidableEq

def SystemError.message (e : SystemError) : Text :=
  lit "[Errno " ++ Numeral.ofInt e.cause.number ++ lit "] " ++ e.cause.text ++ lit ": "
    ++ e.path.quoted

/-- Why a text cannot be handed to the file system. -/
inductive BadText
  | nullCharacter
  | unencodable
  deriving DecidableEq

def BadText.message : BadText → Text
  | .nullCharacter => lit "embedded null byte"
  | .unencodable => lit "surrogates not allowed"

inductive AccessError
  | system (e : SystemError)
  | badText (b : BadText)
  deriving DecidableEq

def AccessError.message : AccessError → Text
  | .system e => e.message
  | .badText b => b.message

/-- Why a file could not be written. -/
inductive WriteError
  | access (e : AccessError)
  /-- Too many directories, one in the other, had to be made first. -/
  | tooDeep
  /-- A number has more digits than are ever written. -/
  | tooManyDigits
  deriving DecidableEq

end HiddenText
