import HiddenText.Proofs.Files.Below
import HiddenText.Proofs.Files.Reordered
import HiddenText.Proofs.Listing.Listed

/-!
# Listings are in order, whatever the directories are

A walk sorts the entries of every directory, so it does the same in a tree whose directories give
their entries in another order (`Walker.visit_reordered`), log and failures included.  The order of
a directory is that of the names in it, and so the whole listing is in the dictionary order of the
names on the way to each file: those below a directory stand where the directory stands among its
neighbours.

Main statement: `Disk.walk_withRoot`.
-/

namespace HiddenText

/-- Sorting forgets in which order the elements were given. -/
theorem sortBy_eq_of_perm {α : Type} {le : α → α → Bool}
    (htrans : ∀ a b c, le a b → le b c → le a c) (htotal : ∀ a b, le a b || le b a)
    {l l' : List α} (h : l.Perm l') (hanti : ∀ a ∈ l, ∀ b ∈ l, le a b → le b a → a = b) :
    sortBy le l = sortBy le l' := by
  have hperm := sortBy_perm le l
  have hperm' := (sortBy_perm le l').trans h.symm
  refine (hperm.trans hperm'.symm).eq_of_pairwise ?_ (sortBy_pairwise htrans htotal l)
    (sortBy_pairwise htrans htotal l')
  intro a b ha hb
  exact hanti a (hperm.mem_iff.mp ha) b (hperm'.mem_iff.mp hb)

theorem Text.eq_of_le {s t : Text} (hst : s.le t) (hts : t.le s) : s = t := by
  by_contra hne
  exact List.lt_asymm (lt_of_le hst hne) (lt_of_le hts (Ne.symm hne))

namespace Walker

open Node

variable {w w' : Walker} {levels : Nat} {path : Text} {es es' : List (Name × Node)}
  {node node' : Node}

/-- What a directory has under a name, with the order it comes in. -/
def contributionOf (w : Walker) (levels : Nat) (path : Text) (es : List (Name × Node)) (n : Name) :
    Text × Logged (Except WalkError (List Text)) :=
  (Utf8.decodeEscaped n, ((es.lookup n).map (w.visit levels (Utf8.decodeEscaped n)
    (Path.child path (Utf8.decodeEscaped n)))).getD ⟨[], .ok []⟩)

theorem visitEntries_eq_map_names (w : Walker) (levels : Nat) (path : Text)
    (hnodup : (es.map Prod.fst).Nodup) :
    w.visitEntries levels path es = (es.map Prod.fst).map (w.contributionOf levels path es) := by
  rw [visitEntries_eq_map, List.map_map]
  apply List.map_congr_left
  intro e he
  rw [Function.comp_apply, contributionOf, lookup_of_mem hnodup he]
  rfl

/-- Directories with the same contributions under the same names are taken alike. -/
theorem sortBy_visitEntries_congr (hnodup : (es.map Prod.fst).Nodup)
    (hnames : (es.map Prod.fst).Perm (es'.map Prod.fst))
    (hsame : ∀ n ∈ es.map Prod.fst,
      w.contributionOf levels path es n = w'.contributionOf levels path es' n) :
    sortBy nameOrder (w.visitEntries levels path es) =
      sortBy nameOrder (w'.visitEntries levels path es') := by
  rw [visitEntries_eq_map_names w levels path hnodup,
    visitEntries_eq_map_names w' levels path (hnames.nodup_iff.mp hnodup),
    List.map_congr_left hsame]
  refine sortBy_eq_of_perm (fun _ _ _ => dictionaryLe_trans _ _ _ _)
    (fun _ _ => dictionaryLe_total _ _ _) (hnames.map _) ?_
  intro a ha b hb hab hba
  obtain ⟨n, -, rfl⟩ := List.mem_map.mp ha
  obtain ⟨m, -, rfl⟩ := List.mem_map.mp hb
  rw [Utf8.decodeEscaped_injective (Text.eq_of_le hab hba)]

/-- **A walk does not see in which order a directory gives its entries.** -/
theorem visit_reordered (hlist : w.listingError? = w'.listingError?)
    (hlink : ∀ path, w.visitLink path = w'.visitLink path) (h : Reordered node node')
    (hwell : node.WellFormed) : ∀ levels name path,
      w.visit levels name path node = w'.visit levels name path node' := by
  induction h with
  | file data =>
    intro levels name path
    rw [visit, visit]
  | link target =>
    intro levels name path
    rw [visit, visit, hlink]
  | @dir es es' hnames hes ih =>
    intro levels name path
    have hentries (levels : Nat) : sortBy nameOrder (w.visitEntries levels path es) =
        sortBy nameOrder (w'.visitEntries levels path es') := by
      refine sortBy_visitEntries_congr hwell.nodup hnames fun n _ => ?_
      rw [contributionOf, contributionOf]
      obtain ⟨ha, hb⟩ | ⟨a, b, ha, hb, -⟩ := rel_cases ((Reordered.dir hnames hes).lookup n)
      · rw [ha, hb]
        rfl
      · have hwell' := (hwell.entry (mem_of_lookup ha)).2
        rw [ha, hb, Option.map_some, Option.map_some, ih n a b ha hb hwell']
    cases levels with
    | zero => rw [visit, visit]
    | succ levels => rw [visit, visit, hlist, hentries]

end Walker

namespace Disk

open Walker

variable {d : Disk} {tree : Node} {root : Text} {paths : List Text}

def withRoot (d : Disk) (tree : Node) : Disk := { d with files := { d.files with root := tree } }

theorem statText_withRoot (h : Node.Reordered d.files.root tree) (path : Text) :
    (∃ c, d.files.statText path = .error c ∧ (d.withRoot tree).files.statText path = .error c) ∨
      ∃ a b, d.files.statText path = .ok a ∧ (d.withRoot tree).files.statText path = .ok b ∧
        Node.Reordered a b := by
  have hworking : (d.withRoot tree).files.working = d.files.working := rfl
  exact FileSystem.statText_reordered hworking h path

theorem visitLink_withRoot (h : Node.Reordered d.files.root tree) (path : Text) :
    d.walker.visitLink path = (d.withRoot tree).walker.visitLink path := by
  rw [visitLink, visitLink]
  simp only [walker]
  obtain ⟨c, ha, hb⟩ | ⟨a, b, ha, hb, hreordered⟩ := statText_withRoot h path
  · rw [ha, hb]
  · rw [ha, hb]
    cases hreordered with
    | file data => rfl
    | link target => rfl
    | dir _ _ => rfl

theorem walk_eq_of_reordered (hwell : d.files.root.WellFormed)
    (h : Node.Reordered d.files.root tree) (root : Text) :
    (d.withRoot tree).walk root = d.walk root := by
  rw [walk, walk]
  obtain ⟨c, ha, hb⟩ | ⟨a, b, ha, hb, hreordered⟩ := statText_withRoot h root
  · rw [ha, hb]
  · obtain ⟨place, -, hget⟩ := FileSystem.statText_eq_ok_iff.mp ha
    have hlist : d.walker.listingError? = (d.withRoot tree).walker.listingError? := rfl
    have hvisit := visit_reordered hlist (visitLink_withRoot h) hreordered (hwell.get? hget)
    rw [ha, hb]
    cases hreordered with
    | file data => rfl
    | link target => rfl
    | dir _ _ =>
      simp only [Walker.walk]
      rw [hvisit]
      rfl

theorem exists_visit_of_walk (hwell : d.files.root.WellFormed)
    (h : (d.walk root).result = .ok paths) : ∃ es, d.files.statText root = .ok (.dir es) ∧
      (Node.dir es).WellFormed ∧
        (d.walker.visit d.depths.walked [] root (.dir es)).result = .ok paths := by
  by_cases hdir : d.files.isDirectory root
  · obtain ⟨es, hstat⟩ := FileSystem.isDirectory_iff.mp hdir
    obtain ⟨place, -, hget⟩ := FileSystem.statText_eq_ok_iff.mp hstat
    rw [walk_of_dir hstat] at h
    exact ⟨es, hstat, hwell.get? hget, h⟩
  · rw [walk_of_not_isDirectory hdir] at h
    cases h

/-- **A listing is in order, and no other order of the directories makes another one.**  In a tree
that differs in nothing but the order of the entries of its directories a walk does the same.  If it
gives a list, the names on the way from the root to each file come strictly one after the other in
the list, in the dictionary order over names, which are themselves in the dictionary order over
code points, kept bytes included. -/
theorem walk_withRoot (hwell : d.files.root.WellFormed) (h : Node.Reordered d.files.root tree)
    (root : Text) : (d.withRoot tree).walk root = d.walk root ∧
      ∀ paths, (d.walk root).result = .ok paths →
        (paths.map (Path.below root)).Pairwise (· < ·) := by
  refine ⟨walk_eq_of_reordered hwell h root, fun paths hwalk => ?_⟩
  obtain ⟨es, -, hdir, hvisit⟩ := exists_visit_of_walk hwell hwalk
  obtain ⟨places, rfl, hordered, hmem⟩ := isOrderedListing_of_visit hdir hvisit
  have hbelow : ∀ place ∈ places,
      (Path.below root ∘ Path.descend root) place = place.map Utf8.decodeEscaped := by
    intro place hplace
    obtain ⟨a, ha, henters, hlists⟩ := (hmem place).mp hplace
    refine Path.below_descend ?_ (hdir.isName ha)
    rintro rfl
    exact not_listsAt_dir_nil _ _ _ _ ⟨a, ha, henters, hlists⟩
  rw [List.map_map, List.map_congr_left hbelow, List.pairwise_map]
  exact hordered

/-- A directory `a`, whose files come before `a-b` and `a.txt`, with a name that is no UTF-8. -/
def jumbledEntries : List (Name × Node) :=
  [([0x61, 0x2E, 0x74, 0x78, 0x74], .file []),
    ([0x61], .dir [([0xFF], .file []), ([0x78], .file [])]), ([0x61, 0x2D, 0x62], .file [])]

/-- The same entries, in another order at both levels. -/
def rearrangedEntries : List (Name × Node) :=
  [([0x61], .dir [([0x78], .file []), ([0xFF], .file [])]), ([0x61, 0x2D, 0x62], .file []),
    ([0x61, 0x2E, 0x74, 0x78, 0x74], .file [])]

def jumbled : Disk := { files := { root := .dir jumbledEntries, working := [] } }

theorem wellFormed_jumbledEntries : (Node.dir jumbledEntries).WellFormed := by
  refine .dir (by decide) (by decide) ?_
  simp only [jumbledEntries, List.forall_mem_cons]
  refine ⟨.file _, .dir (by decide) (by decide) ?_, .file _, by simp⟩
  simp only [List.forall_mem_cons]
  exact ⟨.file _, .file _, by simp⟩

theorem reordered_jumbledEntries :
    Node.Reordered (.dir jumbledEntries) (.dir rearrangedEntries) := by
  have hbelow : Node.Reordered (.dir [([0xFF], .file []), ([0x78], .file [])])
      (.dir [([0x78], .file []), ([0xFF], .file [])]) := by
    refine .dir (by decide) fun n a b ha hb => ?_
    have hmem := Node.mem_of_lookup ha
    simp only [List.mem_cons, Prod.mk.injEq, List.not_mem_nil, or_false] at hmem
    rcases hmem with ⟨rfl, rfl⟩ | ⟨rfl, rfl⟩
    · obtain rfl := Option.some.inj hb
      exact .file _
    · obtain rfl := Option.some.inj hb
      exact .file _
  refine .dir (by decide) fun n a b ha hb => ?_
  have hmem := Node.mem_of_lookup ha
  simp only [jumbledEntries, List.mem_cons, Prod.mk.injEq, List.not_mem_nil, or_false] at hmem
  rcases hmem with ⟨rfl, rfl⟩ | ⟨rfl, rfl⟩ | ⟨rfl, rfl⟩
  · obtain rfl := Option.some.inj hb
    exact .file _
  · obtain rfl := Option.some.inj hb
    exact hbelow
  · obtain rfl := Option.some.inj hb
    exact .file _

theorem walk_jumbled :
    (jumbled.withRoot (.dir rearrangedEntries)).walk (lit ".") = jumbled.walk (lit ".") ∧
      ∃ paths, (jumbled.walk (lit ".")).result = .ok paths ∧ paths.length = 4 ∧
        (paths.map (Path.below (lit "."))).Pairwise (· < ·) := by
  obtain ⟨hsame, hsorted⟩ :=
    walk_withRoot (d := jumbled) wellFormed_jumbledEntries reordered_jumbledEntries (lit ".")
  refine ⟨hsame, _, rfl, rfl, hsorted _ rfl⟩

end Disk

end HiddenText
