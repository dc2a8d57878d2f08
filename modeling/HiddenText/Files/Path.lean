import HiddenText.Files.Error

/-!
# Paths

As texts, paths are put together and taken apart at their last slash.  For a lookup a path is a list
of steps: runs of slashes separate names, `.` and `..` are steps of their own, and a slash at the
end is a step that only a directory lets pass.
-/

namespace HiddenText

/-- The name of a directory entry. -/
abbrev Name := Bytes

namespace Path

/-- A name below a directory. -/
def child (directory name : Text) : Text :=
  if directory.getLast? = some CodePoint.slash then directory ++ name
  else directory ++ CodePoint.slash :: name

def notSlash (c : CodePoint) : Bool := c != CodePoint.slash

def isSlash (c : CodePoint) : Bool := c == CodePoint.slash

/-- What stands after the last slash. -/
def base (path : Text) : Text := (path.reverse.takeWhile notSlash).reverse

/-- What stands before the last slash, without the slashes at its end unless it has nothing else. -/
def parent (path : Text) : Text :=
  let head := path.reverse.dropWhile notSlash
  if head.all isSlash then head.reverse else (head.dropWhile isSlash).reverse

/-- The bytes under which the file system knows a path. -/
def toBytes (path : Text) : Except BadText Bytes :=
  match Utf8.encode? path with
  | none => .error .unencodable
  | some bytes => if bytes.contains 0 then .error .nullCharacter else .ok bytes

inductive Step
  | name (n : Name)
  | here
  | up
  | slash
  deriving DecidableEq

def Step.ofName (n : Name) : Step :=
  if n = [0x2E] then .here else if n = [0x2E, 0x2E] then .up else .name n

def steps (path : Bytes) : List Step :=
  let named := ((Text.split 0x2F path).filter fun n => !n.isEmpty).map Step.ofName
  if named.isEmpty || path.getLast? != some 0x2F then named else named ++ [.slash]

def isAbsolute (path : Bytes) : Bool := path.head? == some 0x2F

/-- The longest name, in bytes. -/
def nameLimit : Nat := 255

/-- The longest path, in bytes. -/
def lengthLimit : Nat := 4095

end Path

end HiddenText
