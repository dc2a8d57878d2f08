import HiddenText.Files.Tree

/-!
# Path lookup

`FileSystem.find` follows a path to where it leads: a node that exists, or a free name in a
directory that exists.  Every step must start in a directory; links on the way are followed, up to
`linkLimit` of them in one lookup.
-/

namespace HiddenText

/-- What a lookup is for. -/
inductive Purpose
  /-- Use of what is there, the target if it is a link. -/
  | use
  /-- The entry itself, even if it is a link. -/
  | entry
  /-- Writing a file, made if it is missing.  The path must not end in a slash. -/
  | create
  deriving DecidableEq

/-- Where a path leads. -/
inductive Target
  | found (place : Place)
  | free (directory : Place) (name : Name)
  deriving DecidableEq

/-- The most links that one lookup follows. -/
def linkLimit : Nat := 40

namespace Node

/-- Where the target of a link in the given directory is looked up from. -/
def linkStart (directory : Place) (target : Bytes) : Place :=
  if Path.isAbsolute target then [] else directory

/-- Takes the steps of a path one by one from a place.  A link on the way is left to `follow`, with
the steps of its target in front of the rest. -/
def walkSteps (root : Node) (purpose : Purpose)
    (follow : Place → List Path.Step → Except Cause Target) :
    Place → List Path.Step → Except Cause Target
  | place, [] => .ok (.found place)
  | place, step :: rest =>
    match root.get? place with
    | some (.dir es) =>
      match step with
      | .here => walkSteps root purpose follow place rest
      | .slash => walkSteps root purpose follow place rest
      | .up => walkSteps root purpose follow place.dropLast rest
      | .name n =>
        if purpose = .create ∧ rest = [.slash] then .error .isDirectory
        else if n.length > Path.nameLimit then .error .nameTooLong
        else
          match es.lookup n with
          | none => if rest.isEmpty then .ok (.free place n) else .error .noEntry
          | some (.link target) =>
            if purpose = .entry ∧ rest = [] then .ok (.found (place ++ [n]))
            else follow (linkStart place target) (Path.steps target ++ rest)
          | some _ => walkSteps root purpose follow (place ++ [n]) rest
    | _ => .error .notDirectory

/-- Takes the steps of a path, following at most so many links. -/
def followSteps (root : Node) (purpose : Purpose) :
    Nat → Place → List Path.Step → Except Cause Target
  | 0 => walkSteps root purpose fun _ _ => .error .tooManyLinks
  | links + 1 => walkSteps root purpose (followSteps root purpose links)

end Node

namespace FileSystem

/-- Where a path leads. -/
def find (fs : FileSystem) (purpose : Purpose) (path : Bytes) : Except Cause Target :=
  if path.isEmpty then .error .noEntry
  else if path.length > Path.lengthLimit then .error .nameTooLong
  else
    fs.root.followSteps purpose linkLimit (if Path.isAbsolute path then [] else fs.working)
      (Path.steps path)

/-- The node to which a path leads, never a link. -/
def stat (fs : FileSystem) (path : Bytes) : Except Cause Node :=
  match fs.find .use path with
  | .error c => .error c
  | .ok (.free _ _) => .error .noEntry
  | .ok (.found place) =>
    match fs.root.get? place with
    | some node => .ok node
    | none => .error .noEntry

/-- The node to which a path leads; a text that is no path leads nowhere. -/
def statText (fs : FileSystem) (path : Text) : Except Cause Node :=
  match Path.toBytes path with
  | .ok bytes => fs.stat bytes
  | .error _ => .error .noEntry

/-- The node to which a path leads, if it leads to one. -/
def node? (fs : FileSystem) (path : Text) : Option Node := (fs.statText path).toOption

def isDirectory (fs : FileSystem) (path : Text) : Bool :=
  match fs.node? path with
  | some node => node.isDir
  | none => false

end FileSystem

end HiddenText
