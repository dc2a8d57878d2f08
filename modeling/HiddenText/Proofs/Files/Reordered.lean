import HiddenText.Proofs.Files.Opens
import HiddenText.Proofs.Files.WellFormed

/-!
# Directories in another order

A file system does not say in which order it gives the entries of a directory.  `Node.Reordered`
relates two trees that differ in these orders alone.  At every place they have nodes of the same
kind (`Node.Reordered.sameKind`), which is all that a lookup reads (`Node.followSteps_congr`), so
every path leads to the same place in both.
-/

namespace HiddenText

namespace Node

/-- The same tree, with the entries of each directory in any order. -/
inductive Reordered : Node → Node → Prop
  | file (data : Bytes) : Reordered (.file data) (.file data)
  | link (target : Bytes) : Reordered (.link target) (.link target)
  | dir {es es' : List (Name × Node)} (hnames : (es.map Prod.fst).Perm (es'.map Prod.fst))
      (hes : ∀ n a b, es.lookup n = some a → es'.lookup n = some b → Reordered a b) :
      Reordered (.dir es) (.dir es')

theorem lookup_eq_none_iff {es : List (Name × Node)} {n : Name} :
    es.lookup n = none ↔ n ∉ es.map Prod.fst := by
  rw [List.lookup_eq_none_iff, List.mem_map]
  constructor
  · rintro h ⟨e, he, rfl⟩
    have hne := h e he
    simp at hne
  · intro h e he
    rw [bne_iff_ne]
    rintro rfl
    exact h ⟨e, he, rfl⟩

namespace Reordered

variable {a b : Node} {es es' : List (Name × Node)}

theorem lookup (h : Reordered (.dir es) (.dir es')) (n : Name) :
    Option.Rel Reordered (es.lookup n) (es'.lookup n) := by
  cases h with
  | dir hnames hes =>
    have hnone : es.lookup n = none ↔ es'.lookup n = none := by
      rw [lookup_eq_none_iff, lookup_eq_none_iff, hnames.mem_iff]
    cases ha : es.lookup n with
    | none =>
      rw [hnone.mp ha]
      exact .none
    | some a =>
      cases hb : es'.lookup n with
      | none =>
        rw [hnone.mpr hb] at ha
        cases ha
      | some b => exact .some (hes n a b ha hb)

theorem get? (h : Reordered a b) (place : Place) :
    Option.Rel Reordered (a.get? place) (b.get? place) := by
  induction place generalizing a b with
  | nil =>
    rw [get?_nil, get?_nil]
    exact .some h
  | cons n rest ih =>
    cases h with
    | file data => exact .none
    | link target => exact .none
    | @dir es es' hnames hes =>
      rw [get?_dir_cons, get?_dir_cons]
      obtain ⟨ha, hb⟩ | ⟨a, b, ha, hb, hbelow⟩ := rel_cases ((dir hnames hes).lookup n)
      · rw [ha, hb]
        exact .none
      · rw [ha, hb]
        exact ih hbelow

theorem sameKind (h : Reordered a b) : SameKind a b := by
  cases h with
  | file data => exact .file data data
  | link target => exact .link target
  | dir _ _ => exact .dir _ _

end Reordered

section

variable {root root' : Node} {purpose : Purpose}

/-- One level of a lookup reads no more of a tree than the kind of the node at each place. -/
theorem walkSteps_congr
    (h : ∀ place, Option.Rel SameKind (root.get? place) (root'.get? place))
    (follow : Place → List Path.Step → Except Cause Target) (steps : List Path.Step) :
    ∀ place, walkSteps root purpose follow place steps =
      walkSteps root' purpose follow place steps := by
  induction steps with
  | nil => exact fun place => rfl
  | cons step rest ih =>
    intro place
    rw [walkSteps, walkSteps]
    obtain ⟨ha, hb⟩ | ⟨a, b, ha, hb, hkind⟩ := rel_cases (h place)
    · rw [ha, hb]
    · rw [ha, hb]
      cases hkind with
      | file _ _ => rfl
      | link _ => rfl
      | dir es es' =>
        cases step with
        | here => exact ih place
        | slash => exact ih place
        | up => exact ih place.dropLast
        | name n =>
          have hname := h (place ++ [n])
          rw [get?_append_singleton ha, get?_append_singleton hb] at hname
          obtain ⟨hn, hn'⟩ | ⟨c, d, hn, hn', hkind⟩ := rel_cases hname
          · simp only [hn, hn']
          · cases hkind <;> simp only [hn, hn', ih]

theorem followSteps_congr
    (h : ∀ place, Option.Rel SameKind (root.get? place) (root'.get? place)) (links : Nat) :
    followSteps root purpose links = followSteps root' purpose links := by
  induction links with
  | zero =>
    funext place steps
    exact walkSteps_congr h _ steps place
  | succ links ih =>
    funext place steps
    rw [followSteps, followSteps, ih]
    exact walkSteps_congr h _ steps place

end

end Node

namespace FileSystem

variable {fs fs' : FileSystem}

theorem find_congr (hworking : fs'.working = fs.working)
    (h : ∀ place, Option.Rel Node.SameKind (fs.root.get? place) (fs'.root.get? place))
    (purpose : Purpose) (path : Bytes) : fs.find purpose path = fs'.find purpose path := by
  rw [find, find, hworking, Node.followSteps_congr h]

/-- A path leads to the same node, or leads nowhere for the same reason. -/
theorem statText_reordered (hworking : fs'.working = fs.working)
    (h : Node.Reordered fs.root fs'.root) (path : Text) :
    (∃ c, fs.statText path = .error c ∧ fs'.statText path = .error c) ∨
      ∃ a b, fs.statText path = .ok a ∧ fs'.statText path = .ok b ∧ Node.Reordered a b := by
  have hkinds (place : Place) :
      Option.Rel Node.SameKind (fs.root.get? place) (fs'.root.get? place) := by
    obtain ⟨ha, hb⟩ | ⟨a, b, ha, hb, hreordered⟩ := Node.rel_cases (h.get? place)
    · rw [ha, hb]
      exact .none
    · rw [ha, hb]
      exact .some hreordered.sameKind
  rw [statText, statText]
  cases Path.toBytes path with
  | error e => exact .inl ⟨.noEntry, rfl, rfl⟩
  | ok bytes =>
    simp only
    rw [stat, stat, ← find_congr hworking hkinds]
    cases fs.find .use bytes with
    | error c => exact .inl ⟨c, rfl, rfl⟩
    | ok target =>
      cases target with
      | free directory n => exact .inl ⟨.noEntry, rfl, rfl⟩
      | found place =>
        simp only
        obtain ⟨ha, hb⟩ | ⟨a, b, ha, hb, hreordered⟩ := Node.rel_cases (h.get? place)
        · rw [ha, hb]
          exact .inl ⟨.noEntry, rfl, rfl⟩
        · rw [ha, hb]
          exact .inr ⟨a, b, rfl, rfl, hreordered⟩

end FileSystem

end HiddenText
