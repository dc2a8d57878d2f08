import HiddenText.Proofs.Files.Places
import HiddenText.Proofs.Files.Steps
import Mathlib.Data.List.Nodup

/-!
# Well-formed trees

A well-formed tree is one that a file system can hold: no directory has a name twice, and every name
is one that a path can give.  There may be links in it, with any targets.
-/

namespace HiddenText.Node

/-- A tree in which no directory has a name twice, and every name is proper. -/
inductive WellFormed : Node → Prop
  | file (data : Bytes) : WellFormed (.file data)
  | link (target : Bytes) : WellFormed (.link target)
  | dir {es : List (Name × Node)} (hnodup : (es.map Prod.fst).Nodup)
      (hnames : ∀ e ∈ es, Path.IsName e.1) (hes : ∀ e ∈ es, WellFormed e.2) : WellFormed (.dir es)

theorem mem_of_lookup {es : List (Name × Node)} {n : Name} {node : Node}
    (h : es.lookup n = some node) : (n, node) ∈ es := by
  obtain ⟨before, after, rfl, -⟩ := List.lookup_eq_some_iff.mp h
  exact List.mem_append_right _ List.mem_cons_self

/-- What stands below a first name in a directory stands below one of its entries. -/
theorem exists_mem_of_get? {es : List (Name × Node)} {n : Name} {place : Place} {a : Node}
    (h : (dir es).get? (n :: place) = some a) :
    ∃ below, (n, below) ∈ es ∧ below.get? place = some a := by
  obtain ⟨_, below, heq, hlookup, ha⟩ := get?_cons_eq_some h
  obtain rfl := dir.inj heq
  exact ⟨below, mem_of_lookup hlookup, ha⟩

theorem lookup_of_mem {es : List (Name × Node)} (hnodup : (es.map Prod.fst).Nodup)
    {e : Name × Node} (h : e ∈ es) : es.lookup e.1 = some e.2 := by
  obtain ⟨before, after, rfl⟩ := List.append_of_mem h
  rw [List.map_append, List.map_cons, List.nodup_middle, List.nodup_cons, List.mem_append,
    not_or] at hnodup
  refine List.lookup_eq_some_iff.mpr ⟨before, after, rfl, ?_⟩
  intro other hother
  rw [bne_iff_ne]
  intro heq
  exact hnodup.1.1 (List.mem_map.mpr ⟨other, hother, heq.symm⟩)

namespace WellFormed

theorem nodup {es : List (Name × Node)} (h : WellFormed (.dir es)) : (es.map Prod.fst).Nodup := by
  cases h with
  | dir hnodup _ _ => exact hnodup

theorem entry {es : List (Name × Node)} (h : WellFormed (.dir es)) {e : Name × Node}
    (he : e ∈ es) : Path.IsName e.1 ∧ WellFormed e.2 := by
  cases h with
  | dir _ hnames hes => exact ⟨hnames e he, hes e he⟩

theorem get? {node a : Node} (h : WellFormed node) {place : Place}
    (ha : node.get? place = some a) : WellFormed a := by
  induction place generalizing node with
  | nil =>
    rw [get?_nil] at ha
    rwa [← Option.some.inj ha]
  | cons n place ih =>
    obtain ⟨es, below, rfl, hlookup, ha⟩ := get?_cons_eq_some ha
    exact ih (h.entry (mem_of_lookup hlookup)).2 ha

theorem isName {node a : Node} (h : WellFormed node) {place : Place}
    (ha : node.get? place = some a) : ∀ n ∈ place, Path.IsName n := by
  induction place generalizing node with
  | nil =>
    intro n hn
    cases hn
  | cons m place ih =>
    obtain ⟨es, below, rfl, hlookup, ha⟩ := get?_cons_eq_some ha
    obtain ⟨hname, hbelow⟩ := h.entry (mem_of_lookup hlookup)
    exact List.forall_mem_cons.mpr ⟨hname, ih hbelow ha⟩

end WellFormed

end HiddenText.Node
