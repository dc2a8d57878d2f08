import HiddenText.Files.Disk
import HiddenText.Listing.Basic

/-!
# The files below a directory

A walk lists the files below a root, every directory in the order of the decoded names.  Directories
are entered unless they are called `.git`; links are never entered, and listed if they lead to a
file.  A directory that cannot be listed costs the files below it.  A link that leads nowhere is
left out, but any other failure to follow one ends the walk, and so does a directory that stands too
deep.

The walk is a recursion on the tree, with a bound on how many directories it enters one in the
other.  What the tree does not show, which directories cannot be listed and where links lead, it
asks a `Walker`.
-/

namespace HiddenText

/-- What ended a walk. -/
inductive WalkError
  | listing (e : ListingError)
  | link (e : SystemError)
  /-- More directories, one in the other, than may be entered. -/
  | tooDeep
  deriving DecidableEq

/-- What a walk finds out by path. -/
structure Walker where
  /-- Why a directory cannot be listed. -/
  listingError? : Text → Option SystemError
  /-- What a link leads to. -/
  follow : Text → Except Cause Node

namespace Walker

/-- The name of directories that a walk leaves out. -/
def excludedName : Text := lit ".git"

/-- The link itself, if it is listed. -/
def visitLink (w : Walker) (path : Text) : Except WalkError (List Text) :=
  match w.follow path with
  | .ok (.file _) => .ok [path]
  | .ok _ => .ok []
  | .error c => if c.number = 2 then .ok [] else .error (.link ⟨c, path⟩)

/-- The order in which the entries of a directory are taken. -/
def nameOrder {α : Type} (a b : Text × α) : Bool := a.1.le b.1

mutual

/-- The files that an entry with the given name and path contributes, when so many more directories
may be entered one in the other. -/
def visit (w : Walker) (levels : Nat) (name path : Text) :
    Node → Logged (Except WalkError (List Text))
  | .file _ => ⟨[], .ok [path]⟩
  | .link _ => ⟨[], w.visitLink path⟩
  | .dir es =>
    if name = excludedName then ⟨[], .ok []⟩
    else
      match levels with
      | 0 => ⟨[], .error .tooDeep⟩
      | levels + 1 =>
        match w.listingError? path with
        | some e => ⟨[.unreadableDirectory path e], .ok []⟩
        | none =>
          let ⟨log, result⟩ :=
            inTurn ((sortBy nameOrder (w.visitEntries levels path es)).map Prod.snd)
          ⟨log, result.map List.flatten⟩

/-- The contributions of the entries of a directory, by name. -/
def visitEntries (w : Walker) (levels : Nat) (directory : Text) :
    List (Name × Node) → List (Text × Logged (Except WalkError (List Text)))
  | [] => []
  | (n, node) :: rest =>
    (Utf8.decodeEscaped n,
        w.visit levels (Utf8.decodeEscaped n) (Path.child directory (Utf8.decodeEscaped n)) node)
      :: w.visitEntries levels directory rest

end

/-- The files below a root with the given entries.  The root itself may be called `.git`. -/
def walk (w : Walker) (levels : Nat) (root : Text) (es : List (Name × Node)) :
    Logged (Except WalkError (List Text)) :=
  let ⟨log, result⟩ := w.visit levels [] root (.dir es)
  match result with
  | .ok paths => ⟨log ++ [.walked root paths.length], .ok paths⟩
  | .error e => ⟨log, .error e⟩

end Walker

namespace Disk

def walker (d : Disk) : Walker :=
  { listingError? := d.listingError?, follow := d.files.statText }

/-- The files below a directory of the disk. -/
def walk (d : Disk) (root : Text) : Logged (Except WalkError (List Text)) :=
  match d.files.statText root with
  | .ok (.dir es) => d.walker.walk d.depths.walked root es
  | _ => ⟨[], .error (.listing (.notDirectory root))⟩

end Disk

end HiddenText
