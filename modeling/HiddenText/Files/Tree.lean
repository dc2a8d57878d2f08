import HiddenText.Files.Path

/-!
# File trees

A file system is a tree of directories, files and symbolic links, with a working directory.  A place
in it is the list of names on the way down from the root, so that no link and no `..` is left in it.
-/

namespace HiddenText

inductive Node
  | file (data : Bytes)
  | link (target : Bytes)
  | dir (entries : List (Name × Node))

/-- The names on the way from the root to a node. -/
abbrev Place := List Name

structure FileSystem where
  root : Node
  working : Place

namespace Node

theorem sizeOf_lt_dir {es : List (Name × Node)} {e : Name × Node} (h : e ∈ es) :
    sizeOf e.2 < sizeOf (dir es) := by
  have hmem := List.sizeOf_lt_of_mem h
  have hsnd : sizeOf e.2 < sizeOf e := by
    obtain ⟨n, node⟩ := e
    show sizeOf node < sizeOf (n, node)
    rw [Prod.mk.sizeOf_spec]
    omega
  simp only [dir.sizeOf_spec]
  omega

/-- What holds of a directory if it holds of all its entries holds of every node. -/
@[elab_as_elim]
theorem induct {motive : Node → Prop} (file : ∀ data, motive (.file data))
    (link : ∀ target, motive (.link target))
    (dir : ∀ es, (∀ e ∈ es, motive e.2) → motive (.dir es)) : ∀ node, motive node
  | .file data => file data
  | .link target => link target
  | .dir es => dir es fun e _he => induct file link dir e.2
termination_by node => sizeOf node
decreasing_by exact sizeOf_lt_dir _he

def emptyDir : Node := .dir []

def isDir : Node → Bool
  | .dir _ => true
  | _ => false

def entries : Node → List (Name × Node)
  | .dir es => es
  | _ => []

def child? (node : Node) (n : Name) : Option Node := node.entries.lookup n

/-- The node at a place. -/
def get? : Node → Place → Option Node
  | node, [] => some node
  | node, n :: rest =>
    match node.child? n with
    | some below => below.get? rest
    | none => none

/-- Binds a name in a directory listing: a known name keeps its position, a new one comes last. -/
def bind (es : List (Name × Node)) (n : Name) (node : Node) : List (Name × Node) :=
  if es.any (·.1 == n) then es.map fun e => if e.1 == n then (n, node) else e
  else es ++ [(n, node)]

/-- Puts a node at a place.  Only the last name of the place may be new. -/
def set : Node → Place → Node → Node
  | _, [], new => new
  | .dir es, n :: rest, new =>
    match es.lookup n with
    | some below => .dir (bind es n (below.set rest new))
    | none => if rest.isEmpty then .dir (bind es n new) else .dir es
  | node, _ :: _, _ => node

end Node

end HiddenText
