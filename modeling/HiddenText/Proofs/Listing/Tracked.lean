import HiddenText.Files.Path
import HiddenText.Listing.Git
import HiddenText.Proofs.Utf8.Escaped

/-!
# Tracked names

Git prints a null byte after every name.  Its output is read as a whole and cut at the null
characters then, which is as good as cutting it first: a null byte is a null character whatever
stands before it, an unfinished character included, and no name has one.  So the listed paths are
the names, kept byte for byte, but for those of blanks alone, which go the way of the empty piece
after the last null byte.

Main statement: `list_terminated`.
-/

namespace HiddenText.GitOutcome

variable {names : List Name}

/-- Every name with a null byte after it. -/
def terminated (names : List Name) : Bytes := names.flatMap fun n => n ++ [0]

/-- A name that reads as blanks alone. -/
def isBlankName (n : Name) : Bool := (Utf8.decodeEscaped n).isBlank

theorem split_decodeEscaped_terminated (h : ∀ n ∈ names, 0 ∉ n) :
    Text.split (.ofNat 0) (Utf8.decodeEscaped (terminated names)) =
      names.map Utf8.decodeEscaped ++ [[]] := by
  induction names with
  | nil => rfl
  | cons n names ih =>
    obtain ⟨hn, hnames⟩ := List.forall_mem_cons.mp h
    have hpiece : CodePoint.ofNat 0 ∉ Utf8.decodeEscaped n :=
      fun hmem => hn (Utf8.zero_mem_of_mem_decodeEscaped hmem)
    have hread : Utf8.decodeEscaped (terminated (n :: names)) =
        Utf8.decodeEscaped n ++ .ofNat 0 :: Utf8.decodeEscaped (terminated names) := by
      rw [terminated, List.flatMap_cons, List.append_assoc, List.singleton_append, ← terminated]
      exact Utf8.decodeEscaped_append_cons (by decide) n (terminated names)
    rw [hread, Text.split_append_cons, Text.split_of_not_mem hpiece, ih hnames]
    rfl

/-- The piece after the last null byte is blank, and dropped with the other blank ones. -/
theorem paths_terminated (h : ∀ n ∈ names, 0 ∉ n) :
    paths (terminated names) =
      (names.filter fun n => !isBlankName n).map Utf8.decodeEscaped := by
  rw [paths, split_decodeEscaped_terminated h, List.filter_append, List.filter_map]
  exact List.append_nil _

theorem map_encode?_decodeEscaped (names : List Name) :
    (names.map Utf8.decodeEscaped).map Utf8.encode? = names.map some := by
  rw [List.map_map]
  exact List.map_congr_left fun n _ => Utf8.encode?_decodeEscaped n

/-- **Tracked names are kept byte for byte.**  When git succeeds and ends every name with a null
byte, the listed paths are the names in their order, less those of blanks alone: each path has the
bytes of its name, whether they are UTF-8 or not.  So all names are listed just in case none of them
is blank. -/
theorem list_terminated (h : ∀ n ∈ names, 0 ∉ n) (errors : Bytes) (directory : Option Text) :
    ∃ paths, (list (.finished (terminated names) errors 0) directory).result = .ok paths ∧
      paths.map Utf8.encode? = (names.filter fun n => !isBlankName n).map some ∧
      (paths.map Utf8.encode? = names.map some ↔ ∀ n ∈ names, isBlankName n = false) := by
  have hencode := map_encode?_decodeEscaped (names.filter fun n => !isBlankName n)
  refine ⟨paths (terminated names), rfl, ?_, ?_⟩
  · rw [paths_terminated h, hencode]
  · rw [paths_terminated h, hencode, List.map_inj_right fun _ _ => Option.some.inj,
      List.filter_eq_self]
    simp

/-- A name that is no UTF-8, one that ends in the middle of a character, and one of a blank, a quote
and a backslash. -/
def oddNames : List Name := [[0xFF, 0x61], [0x62, 0xE2, 0x80], [0x20, 0x22, 0x5C]]

theorem list_terminated_oddNames :
    (∀ n ∈ oddNames, 0 ∉ n) ∧
      ∃ paths, (list (.finished (terminated oddNames) [] 0) none).result = .ok paths ∧
        paths.map Utf8.encode? = oddNames.map some := by
  have h : ∀ n ∈ oddNames, 0 ∉ n := by decide
  obtain ⟨paths, hlist, -, hall⟩ := list_terminated h [] none
  exact ⟨h, paths, hlist, hall.mpr (by decide)⟩

/-- A tracked file whose name is a blank is not listed. -/
theorem list_terminated_blank :
    ([0x20] : Name) ≠ [] ∧ 0 ∉ ([0x20] : Name) ∧
      (list (.finished (terminated [[0x20]]) [] 0) none).result = .ok [] :=
  ⟨by decide, by decide, rfl⟩

end HiddenText.GitOutcome
