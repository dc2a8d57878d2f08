import HiddenText.Proofs.Files.WellFormed
import HiddenText.Proofs.Listing.Order
import Mathlib.Data.List.Nodup

/-!
# The places that a walk lists

What a walk lists, told from the tree: the places of files, and of links that lead to files, on the
way to which all directories are entered (`Walker.ListsAt`).  A walk that succeeds lists the paths
of exactly these places, one after the other in the order of their names
(`Walker.isOrderedListing_of_visit`), and so each of them once (`Walker.isListing_of_visit`).  It
comes by a node only at such a place (`Walker.Reaches.exists_place`).  When every directory can be
listed, a place counts just in case no directory on the way to it is called `.git`.

Main statement: `Disk.exists_places_of_walk`.
-/

namespace HiddenText

theorem Path.descend_inj {directory : Text} {bytes : Bytes} {p q : Place}
    (hbytes : toBytes directory = .ok bytes) (hne : bytes ≠ []) (hp : ∀ n ∈ p, IsName n)
    (hq : ∀ n ∈ q, IsName n) (h : descend directory p = descend directory q) : p = q := by
  obtain ⟨below, hbelow, -, hnamed⟩ := toBytes_descend hp hbytes hne
  obtain ⟨below', hbelow', -, hnamed'⟩ := toBytes_descend hq hbytes hne
  rw [h, hbelow'] at hbelow
  obtain rfl := Except.ok.inj hbelow
  rw [hnamed] at hnamed'
  exact List.map_injective_iff.mpr (fun _ _ => Step.name.inj) (List.append_cancel_left hnamed')

/-- A place comes before another one in the order of their decoded names. -/
def Precedes (p q : Place) : Prop := p.map Utf8.decodeEscaped < q.map Utf8.decodeEscaped

theorem Precedes.ne {p q : Place} (h : Precedes p q) : p ≠ q := by
  rintro rfl
  exact List.lt_irrefl _ h

theorem Node.get?_leaf_eq_some {node a : Node} {place : Place} (hdir : node.isDir = false)
    (h : node.get? place = some a) : place = [] ∧ a = node := by
  cases place with
  | nil =>
    rw [get?_nil] at h
    exact ⟨rfl, (Option.some.inj h).symm⟩
  | cons n rest =>
    cases node with
    | dir es => cases hdir
    | file data => cases h
    | link target => cases h

namespace Walker

open Node

variable {w : Walker} {levels : Nat} {name path : Text} {node : Node} {es : List (Name × Node)}
  {place : Place}

/-! ## Listed places -/

/-- A walk that starts with a name and a path enters every directory on the way to a place. -/
def Enters (w : Walker) : Text → Text → Place → Prop
  | _, _, [] => True
  | name, path, n :: rest =>
    name ≠ excludedName ∧ w.listingError? path = none ∧
      w.Enters (Utf8.decodeEscaped n) (Path.child path (Utf8.decodeEscaped n)) rest

/-- A node that is listed where a walk comes by it: a file, or a link that leads to one. -/
inductive Lists (w : Walker) (path : Text) : Node → Prop
  | file (data : Bytes) : Lists w path (.file data)
  | link (target : Bytes) {data : Bytes} (h : w.follow path = .ok (.file data)) :
      Lists w path (.link target)

/-- A place below a node whose path a walk lists. -/
def ListsAt (w : Walker) (name path : Text) (node : Node) (place : Place) : Prop :=
  ∃ a, node.get? place = some a ∧ w.Enters name path place ∧ w.Lists (Path.descend path place) a

/-- The paths of all listed places, in some order, each place once. -/
def IsListing (w : Walker) (name path : Text) (node : Node) (paths : List Text) : Prop :=
  ∃ places : List Place, paths = places.map (Path.descend path) ∧ places.Nodup ∧
    ∀ place, place ∈ places ↔ w.ListsAt name path node place

/-- The paths of all listed places, in the order of the places. -/
def IsOrderedListing (w : Walker) (name path : Text) (node : Node) (paths : List Text) : Prop :=
  ∃ places : List Place, paths = places.map (Path.descend path) ∧ places.Pairwise Precedes ∧
    ∀ place, place ∈ places ↔ w.ListsAt name path node place

theorem IsOrderedListing.isListing {paths : List Text}
    (h : w.IsOrderedListing name path node paths) : w.IsListing name path node paths := by
  obtain ⟨places, hpaths, hordered, hmem⟩ := h
  exact ⟨places, hpaths, hordered.imp Precedes.ne, hmem⟩

theorem listsAt_of_leaf (hdir : node.isDir = false) :
    w.ListsAt name path node place ↔ place = [] ∧ w.Lists path node := by
  constructor
  · rintro ⟨a, ha, -, hlists⟩
    obtain ⟨rfl, rfl⟩ := get?_leaf_eq_some hdir ha
    exact ⟨rfl, hlists⟩
  · rintro ⟨rfl, hlists⟩
    exact ⟨node, get?_nil node, trivial, hlists⟩

theorem not_listsAt_dir_nil (w : Walker) (name path : Text) (es : List (Name × Node)) :
    ¬w.ListsAt name path (.dir es) [] := by
  rintro ⟨a, ha, -, hlists⟩
  obtain rfl := Option.some.inj ha
  cases hlists

theorem listsAt_dir_cons {n : Name} {rest : Place} :
    w.ListsAt name path (.dir es) (n :: rest) ↔
      (name ≠ excludedName ∧ w.listingError? path = none) ∧ ∃ below, es.lookup n = some below ∧
        w.ListsAt (Utf8.decodeEscaped n) (Path.child path (Utf8.decodeEscaped n)) below rest := by
  rw [ListsAt]
  simp only [get?_dir_cons, Option.bind_eq_some_iff, Enters]
  constructor
  · rintro ⟨a, ⟨below, hlookup, ha⟩, ⟨hname, hlist, henters⟩, hlists⟩
    exact ⟨⟨hname, hlist⟩, below, hlookup, a, ha, henters, hlists⟩
  · rintro ⟨⟨hname, hlist⟩, below, hlookup, a, ha, henters, hlists⟩
    exact ⟨a, ⟨below, hlookup, ha⟩, ⟨hname, hlist, henters⟩, hlists⟩

theorem not_listsAt_of_not_entered (h : ¬(name ≠ excludedName ∧ w.listingError? path = none)) :
    ¬w.ListsAt name path (.dir es) place := by
  cases place with
  | nil => exact not_listsAt_dir_nil w name path es
  | cons n rest =>
    rw [listsAt_dir_cons]
    exact fun hlists => h hlists.1

theorem visitLink_eq_ok {paths : List Text} (target : Bytes) (h : w.visitLink path = .ok paths) :
    w.Lists path (.link target) ∧ paths = [path] ∨
      ¬w.Lists path (.link target) ∧ paths = [] := by
  rw [visitLink] at h
  cases hfollow : w.follow path with
  | error c =>
    right
    rw [hfollow] at h
    simp only at h
    split at h
    · refine ⟨?_, (Except.ok.inj h).symm⟩
      rintro (_ | ⟨_, hfile⟩)
      rw [hfollow] at hfile
      cases hfile
    · cases h
  | ok a =>
    rw [hfollow] at h
    cases a with
    | file data => exact .inl ⟨.link target hfollow, (Except.ok.inj h).symm⟩
    | dir es | link t =>
      refine .inr ⟨?_, (Except.ok.inj h).symm⟩
      rintro (_ | ⟨_, hfile⟩)
      rw [hfollow] at hfile
      cases hfile

/-- The places that are the given ones below each entry of a directory, entry by entry. -/
def placesBelow (below : Name × Node → List Place) (es : List (Name × Node)) : List Place :=
  es.flatMap fun e => (below e).map (e.1 :: ·)

section

variable {below : Name × Node → List Place}

theorem mem_placesBelow :
    place ∈ placesBelow below es ↔ ∃ e ∈ es, ∃ rest ∈ below e, e.1 :: rest = place := by
  simp only [placesBelow, List.mem_flatMap, List.mem_map]

/-- Below the sorted entries of a directory places are in order if they are below each entry. -/
theorem pairwise_placesBelow (hnodup : (es.map Prod.fst).Nodup)
    (hbelow : ∀ e ∈ es, (below e).Pairwise Precedes) :
    (placesBelow below (sortBy entryOrder es)).Pairwise Precedes := by
  rw [placesBelow, List.pairwise_flatMap]
  constructor
  · intro e he
    have hentry := hbelow e ((sortBy_perm entryOrder es).mem_iff.mp he)
    refine List.pairwise_map.mpr (hentry.imp fun {p q} hpq => ?_)
    exact List.cons_lt_cons_iff.mpr (.inr ⟨rfl, hpq⟩)
  · refine (sorted_sortBy hnodup).imp fun {e e'} hlt p hp q hq => ?_
    obtain ⟨rest, -, rfl⟩ := List.mem_map.mp hp
    obtain ⟨rest', -, rfl⟩ := List.mem_map.mp hq
    exact List.cons_lt_cons_iff.mpr (.inl hlt)

/-- A place below the sorted entries of a directory is one below the entry with its first name. -/
theorem mem_placesBelow_sortBy (hnodup : (es.map Prod.fst).Nodup) :
    place ∈ placesBelow below (sortBy entryOrder es) ↔
      ∃ n rest node, place = n :: rest ∧ es.lookup n = some node ∧ rest ∈ below (n, node) := by
  have hperm := sortBy_perm entryOrder es
  rw [mem_placesBelow]
  constructor
  · rintro ⟨e, he, rest, hrest, rfl⟩
    exact ⟨e.1, rest, e.2, rfl, lookup_of_mem hnodup (hperm.mem_iff.mp he), hrest⟩
  · rintro ⟨n, rest, node, rfl, hlookup, hrest⟩
    exact ⟨(n, node), hperm.mem_iff.mpr (mem_of_lookup hlookup), rest, hrest, rfl⟩

/-- Places below the entries of a directory, with what holds of them, are places below it. -/
theorem exists_placesBelow {holds : Name × Node → List Place → Prop} {isAt : Place → Prop}
    {isBelow : Name × Node → Place → Prop} (hnodup : (es.map Prod.fst).Nodup) (hnil : ¬isAt [])
    (hcons : ∀ n rest, isAt (n :: rest) ↔ ∃ node, es.lookup n = some node ∧ isBelow (n, node) rest)
    (h : ∀ e ∈ es, ∃ places : List Place, holds e places ∧ places.Pairwise Precedes ∧
      ∀ rest, rest ∈ places ↔ isBelow e rest) :
    ∃ below : Name × Node → List Place, (∀ e ∈ es, holds e (below e)) ∧
      (placesBelow below (sortBy entryOrder es)).Pairwise Precedes ∧
      ∀ place, place ∈ placesBelow below (sortBy entryOrder es) ↔ isAt place := by
  choose! below hholds hbelow hmem using h
  refine ⟨below, hholds, pairwise_placesBelow hnodup hbelow, fun place => ?_⟩
  rw [mem_placesBelow_sortBy hnodup]
  constructor
  · rintro ⟨n, rest, node, rfl, hlookup, hrest⟩
    exact (hcons n rest).mpr ⟨node, hlookup, (hmem _ (mem_of_lookup hlookup) rest).mp hrest⟩
  · intro hat
    cases place with
    | nil => exact absurd hat hnil
    | cons n rest =>
      obtain ⟨node, hlookup, hrest⟩ := (hcons n rest).mp hat
      exact ⟨n, rest, node, rfl, hlookup, (hmem _ (mem_of_lookup hlookup) rest).mpr hrest⟩

theorem map_descend_placesBelow (path : Text) :
    (placesBelow below es).map (Path.descend path) = (es.map fun e =>
      (below e).map (Path.descend (Path.child path (Utf8.decodeEscaped e.1)))).flatten := by
  rw [placesBelow, List.map_flatMap, List.flatMap_def]
  simp only [List.map_map]
  rfl

end

/-- A directory lists what it should if every entry does. -/
theorem isOrderedListing_of_entries (hwell : (Node.dir es).WellFormed)
    (hentered : name ≠ excludedName ∧ w.listingError? path = none) {paths : List Text}
    (hvisit : (w.visit (levels + 1) name path (.dir es)).result = .ok paths)
    (hentries : ∀ e ∈ es, ∀ {paths : List Text}, (w.visitEntry levels path e).result = .ok paths →
      w.IsOrderedListing (Utf8.decodeEscaped e.1) (Path.child path (Utf8.decodeEscaped e.1)) e.2
        paths) :
    w.IsOrderedListing name path (.dir es) paths := by
  obtain ⟨pieces, hpieces, rfl⟩ := (visit_eq_ok_iff hentered.1 hentered.2).mp hvisit
  have hperm := sortBy_perm entryOrder es
  have hentry : ∀ e ∈ es, ∃ places : List Place, (w.visitEntry levels path e).result =
        .ok (places.map (Path.descend (Path.child path (Utf8.decodeEscaped e.1)))) ∧
      places.Pairwise Precedes ∧ ∀ rest, rest ∈ places ↔ w.ListsAt (Utf8.decodeEscaped e.1)
        (Path.child path (Utf8.decodeEscaped e.1)) e.2 rest := by
    intro e he
    have hmem : (w.visitEntry levels path e).result ∈ pieces.map .ok := by
      rw [← hpieces]
      exact List.mem_map.mpr ⟨e, hperm.mem_iff.mpr he, rfl⟩
    obtain ⟨piece, -, hpiece⟩ := List.mem_map.mp hmem
    obtain ⟨places, rfl, hplaces⟩ := hentries e he hpiece.symm
    exact ⟨places, hpiece.symm, hplaces⟩
  -- the places of the directory are those of its entries, one step further down
  obtain ⟨below, hresult, hordered, hmem⟩ := exists_placesBelow hwell.nodup
    (not_listsAt_dir_nil w name path es)
    (fun n rest => listsAt_dir_cons.trans (and_iff_right hentered)) hentry
  have hpieces' : pieces = (sortBy entryOrder es).map fun e =>
      (below e).map (Path.descend (Path.child path (Utf8.decodeEscaped e.1))) := by
    apply (List.map_inj_right fun _ _ => Except.ok.inj).mp
    rw [← hpieces, List.map_map]
    exact List.map_congr_left fun e he => hresult e (hperm.mem_iff.mp he)
  refine ⟨placesBelow below (sortBy entryOrder es), ?_, hordered, hmem⟩
  rw [hpieces', map_descend_placesBelow]

/-- A walk that succeeds lists the paths of the listed places, in order. -/
theorem isOrderedListing_of_visit (hwell : node.WellFormed) :
    ∀ {levels : Nat} {name path : Text} {paths : List Text},
      (w.visit levels name path node).result = .ok paths →
        w.IsOrderedListing name path node paths := by
  induction hwell with
  | file data =>
    intro levels name path paths hvisit
    rw [visit] at hvisit
    obtain rfl := Except.ok.inj hvisit
    refine ⟨[[]], rfl, List.pairwise_singleton _ _, fun place => ?_⟩
    rw [listsAt_of_leaf rfl, List.mem_singleton, and_iff_left (.file data)]
  | link target =>
    intro levels name path paths hvisit
    rw [visit] at hvisit
    obtain ⟨hlists, rfl⟩ | ⟨hnot, rfl⟩ := visitLink_eq_ok target hvisit
    · refine ⟨[[]], rfl, List.pairwise_singleton _ _, fun place => ?_⟩
      rw [listsAt_of_leaf rfl, List.mem_singleton, and_iff_left hlists]
    · refine ⟨[], rfl, .nil, fun place => ?_⟩
      rw [listsAt_of_leaf rfl]
      simp [hnot]
  | dir hnodup hnames hes ih =>
    intro levels name path paths hvisit
    obtain ⟨hnot, rfl, -⟩ | ⟨levels, rfl, hentered⟩ := visit_dir_cases hvisit
    · refine ⟨[], rfl, .nil, fun place => ?_⟩
      exact iff_of_false List.not_mem_nil (not_listsAt_of_not_entered hnot)
    · exact isOrderedListing_of_entries (.dir hnodup hnames hes) hentered hvisit
        fun e he _ hentry => ih e he hentry

/-- A walk that succeeds lists the paths of the listed places, each place once. -/
theorem isListing_of_visit (hwell : node.WellFormed) {paths : List Text}
    (hvisit : (w.visit levels name path node).result = .ok paths) :
    w.IsListing name path node paths :=
  (isOrderedListing_of_visit hwell hvisit).isListing

/-- A walk comes by a node at a place on the way to which it enters every directory. -/
theorem Reaches.exists_place {path' : Text} {node' : Node}
    (h : w.Reaches name path node path' node') (hwell : node.WellFormed) :
    ∃ place, path' = Path.descend path place ∧ node.get? place = some node' ∧
      w.Enters name path place := by
  induction h with
  | here name path node => exact ⟨[], rfl, get?_nil node, trivial⟩
  | @enter name path path' es e node' hname hlist hmem _ ih =>
    obtain ⟨place, rfl, hget, henters⟩ := ih (hwell.entry hmem).2
    refine ⟨e.1 :: place, rfl, ?_, hname, hlist, henters⟩
    rw [get?_dir_cons, lookup_of_mem hwell.nodup hmem, Option.bind_some, hget]

/-! ## Directories that are not entered -/

/-- The name of directories that a walk leaves out, in bytes. -/
def excludedBytes : Name := [0x2E, 0x67, 0x69, 0x74]

theorem decodeEscaped_eq_excludedName_iff {n : Name} :
    Utf8.decodeEscaped n = excludedName ↔ n = excludedBytes := by
  have hname : Utf8.decodeEscaped excludedBytes = excludedName := by decide
  constructor
  · intro h
    exact Utf8.decodeEscaped_injective (h.trans hname.symm)
  · rintro rfl
    exact hname

theorem Enters.excludedBytes_not_mem (h : w.Enters name path place) :
    excludedBytes ∉ place.dropLast := by
  induction place generalizing name path with
  | nil => exact List.not_mem_nil
  | cons n rest ih =>
    cases rest with
    | nil => exact List.not_mem_nil
    | cons m rest =>
      obtain ⟨-, -, hrest⟩ := h
      rw [List.dropLast_cons_cons, List.mem_cons, not_or]
      refine ⟨?_, ih hrest⟩
      intro heq
      exact hrest.1 (decodeEscaped_eq_excludedName_iff.mpr heq.symm)

/-- If every directory below one can be listed, so can those below each entry that is entered. -/
theorem listed_of_entry {n : Name} {below : Node}
    (hlist : ∀ p es', (Node.dir es).get? p = some (.dir es') → excludedBytes ∉ p →
      w.listingError? (Path.descend path p) = none)
    (hlookup : es.lookup n = some below) (hn : excludedBytes ≠ n) :
    ∀ p es', below.get? p = some (.dir es') → excludedBytes ∉ p →
      w.listingError? (Path.descend (Path.child path (Utf8.decodeEscaped n)) p) = none := by
  intro p es' hp hgit
  refine hlist (n :: p) es' ?_ ?_
  · rw [get?_dir_cons, hlookup, Option.bind_some, hp]
  · rw [List.mem_cons, not_or]
    exact ⟨hn, hgit⟩

/-- Where all directories can be listed, a walk gets everywhere but below a `.git`. -/
theorem enters_of_get? {a : Node} (hname : name ≠ excludedName)
    (hlist : ∀ p es, node.get? p = some (.dir es) → excludedBytes ∉ p →
      w.listingError? (Path.descend path p) = none)
    (hget : node.get? place = some a) (hgit : excludedBytes ∉ place.dropLast) :
    w.Enters name path place := by
  induction place generalizing name path node with
  | nil => exact trivial
  | cons n rest ih =>
    obtain ⟨es, below, rfl, hlookup, hget⟩ := get?_cons_eq_some hget
    refine ⟨hname, hlist [] es (get?_nil _) List.not_mem_nil, ?_⟩
    cases rest with
    | nil => exact trivial
    | cons m rest =>
      rw [List.dropLast_cons_cons, List.mem_cons, not_or] at hgit
      refine ih ?_ (listed_of_entry hlist hlookup hgit.1) hget hgit.2
      exact fun heq => hgit.1 (decodeEscaped_eq_excludedName_iff.mp heq).symm

/-! ## Too many levels -/

theorem Overflows.name_ne (h : w.Overflows levels name path node) : name ≠ excludedName := by
  cases h with
  | here hname => exact hname
  | enter hname => exact hname

/-- A walk that comes to one directory too many comes to it below as many others as it may enter. -/
theorem Overflows.exists_place (h : w.Overflows levels name path node)
    (hwell : node.WellFormed) : ∃ place below, node.get? place = some (.dir below) ∧
      excludedBytes ∉ place ∧ place.length = levels := by
  induction h with
  | here _ _ es => exact ⟨[], es, get?_nil _, List.not_mem_nil, rfl⟩
  | @enter levels name path es e hname hlist hmem h ih =>
    obtain ⟨place, below, hget, hgit, hlength⟩ := ih (hwell.entry hmem).2
    refine ⟨e.1 :: place, below, ?_, ?_, congrArg (· + 1) hlength⟩
    · rw [get?_dir_cons, lookup_of_mem hwell.nodup hmem, Option.bind_some, hget]
    · rw [List.mem_cons, not_or]
      refine ⟨?_, hgit⟩
      intro heq
      exact h.name_ne (decodeEscaped_eq_excludedName_iff.mpr heq.symm)

/-- Where all directories can be listed, a walk comes to every directory that is deep enough. -/
theorem overflows_of_get? {below : List (Name × Node)} (hname : name ≠ excludedName)
    (hlist : ∀ p es, node.get? p = some (.dir es) → excludedBytes ∉ p →
      w.listingError? (Path.descend path p) = none)
    (hget : node.get? place = some (.dir below)) (hgit : excludedBytes ∉ place)
    (hlevels : levels ≤ place.length) : w.Overflows levels name path node := by
  induction levels generalizing name path node place with
  | zero =>
    cases node with
    | dir es => exact .here hname path es
    | file data =>
      obtain ⟨-, heq⟩ := get?_leaf_eq_some rfl hget
      cases heq
    | link target =>
      obtain ⟨-, heq⟩ := get?_leaf_eq_some rfl hget
      cases heq
  | succ levels ih =>
    obtain ⟨n, rest, rfl⟩ := List.exists_cons_of_length_pos (Nat.lt_of_lt_of_le (by omega) hlevels)
    obtain ⟨es, inner, rfl, hlookup, hget⟩ := get?_cons_eq_some hget
    rw [List.mem_cons, not_or] at hgit
    refine .enter hname (hlist [] es (get?_nil _) List.not_mem_nil) (mem_of_lookup hlookup) ?_
    refine ih ?_ (listed_of_entry hlist hlookup hgit.1) hget hgit.2
      (Nat.le_of_succ_le_succ hlevels)
    exact fun heq => hgit.1 (decodeEscaped_eq_excludedName_iff.mp heq).symm

end Walker

namespace Disk

open Walker

variable {d : Disk} {root : Text} {es : List (Name × Node)}

/-- A walk fails only with a link that it comes by below directories that are not called `.git`. -/
theorem MeetsBadLink.exists_place {e : SystemError} (h : d.MeetsBadLink root e)
    (hwell : (Node.dir es).WellFormed) (hroot : d.files.statText root = .ok (.dir es)) :
    ∃ place target, (Node.dir es).get? place = some (.link target) ∧
      excludedBytes ∉ place.dropLast ∧
      d.files.statText (Path.descend root place) = .error e.cause ∧ e.cause.number ≠ 2 := by
  obtain ⟨es', target, hroot', hreach, hfollow, hnumber⟩ := h
  rw [hroot] at hroot'
  obtain rfl := Node.dir.inj (Except.ok.inj hroot')
  obtain ⟨place, hpath, hget, henters⟩ := hreach.exists_place hwell
  rw [hpath] at hfollow
  exact ⟨place, target, hget, henters.excludedBytes_not_mem, hfollow, hnumber⟩

theorem GoesTooDeep.exists_place (h : d.GoesTooDeep root) (hwell : (Node.dir es).WellFormed)
    (hroot : d.files.statText root = .ok (.dir es)) :
    ∃ place below, (Node.dir es).get? place = some (.dir below) ∧ excludedBytes ∉ place ∧
      place.length = d.depths.walked := by
  obtain ⟨es', hroot', hover⟩ := h
  rw [hroot] at hroot'
  obtain rfl := Node.dir.inj (Except.ok.inj hroot')
  exact hover.exists_place hwell

/-- Without bad links a walk is too deep, or gives a list. -/
theorem walk_of_goesTooDeep (hroot : d.files.statText root = .ok (.dir es))
    (hgood : ∀ e, ¬d.MeetsBadLink root e) (hdeep : d.GoesTooDeep root) :
    (d.walk root).result = .error .tooDeep := by
  have hdir : d.files.isDirectory root := FileSystem.isDirectory_iff.mpr ⟨es, hroot⟩
  cases hwalk : (d.walk root).result with
  | ok paths =>
    refine absurd hdeep ((walk_isOk_of_isDirectory hdir).mp ?_).2
    rw [hwalk]
    rfl
  | error e =>
    obtain ⟨e', -, hbad⟩ | ⟨rfl, -⟩ := meetsBadLink_of_walk hdir hwalk
    · exact absurd hbad (hgood e')
    · rfl

/-- What a walk lists that succeeds, where all directories can be listed. -/
theorem exists_places_of_isOk (hwell : (Node.dir es).WellFormed)
    (hroot : d.files.statText root = .ok (.dir es))
    (hdirs : ∀ place below, (Node.dir es).get? place = some (.dir below) →
      excludedBytes ∉ place → d.listingError? (Path.descend root place) = none)
    (hok : (d.walk root).result.isOk) :
    ∃ places : List Place, (d.walk root).result = .ok (places.map (Path.descend root)) ∧
      (places.map (Path.descend root)).Nodup ∧
      ∀ place, place ∈ places ↔ excludedBytes ∉ place.dropLast ∧
        ((∃ data, (Node.dir es).get? place = some (.file data)) ∨
          ∃ target data, (Node.dir es).get? place = some (.link target) ∧
            d.files.statText (Path.descend root place) = .ok (.file data)) := by
  rw [walk_of_dir hroot] at hok ⊢
  cases hvisit : (d.walker.visit d.depths.walked [] root (.dir es)).result with
  | error e =>
    rw [hvisit] at hok
    cases hok
  | ok paths =>
    obtain ⟨places, rfl, hnodup, hmem⟩ := isListing_of_visit hwell hvisit
    obtain ⟨start, ⟨bytes, hbytes, hfind⟩, -⟩ := FileSystem.statText_eq_ok_iff.mp hroot
    refine ⟨places, rfl, ?_, ?_⟩
    · refine hnodup.map_on fun p hp q hq heq => ?_
      obtain ⟨a, ha, -⟩ := (hmem p).mp hp
      obtain ⟨b, hb, -⟩ := (hmem q).mp hq
      exact Path.descend_inj hbytes (FileSystem.leads_of_find hfind).1 (hwell.isName ha)
        (hwell.isName hb) heq
    · intro place
      rw [hmem]
      constructor
      · rintro ⟨a, ha, henters, hlists⟩
        refine ⟨henters.excludedBytes_not_mem, ?_⟩
        cases hlists with
        | file data => exact .inl ⟨data, ha⟩
        | link target hfile => exact .inr ⟨target, _, ha, hfile⟩
      · rintro ⟨hgit, ⟨data, hget⟩ | ⟨target, data, hget, hfile⟩⟩
        · exact ⟨_, hget, enters_of_get? (by decide) hdirs hget hgit, .file data⟩
        · exact ⟨_, hget, enters_of_get? (by decide) hdirs hget hgit, .link target hfile⟩

/-- **A walk lists every file that it should, and nothing else, unless a directory is too deep.**
Take a root that leads to a directory of a well-formed tree, such that every directory below it can
be listed and every link leads somewhere or to nothing, those below a `.git` left out.  Then a walk
succeeds, if no directory stands below more others, the root among them, than it may enter.  It
lists the paths of some places, all of them different: the places below the root that hold a file,
or a link that leads to a file, and on the way to which there are only directories, none of them
called `.git`.  One directory that is too deep ends the walk with nothing. -/
theorem exists_places_of_walk (hwell : (Node.dir es).WellFormed)
    (hroot : d.files.statText root = .ok (.dir es))
    (hdirs : ∀ place below, (Node.dir es).get? place = some (.dir below) →
      excludedBytes ∉ place → d.listingError? (Path.descend root place) = none)
    (hlinks : ∀ place target, (Node.dir es).get? place = some (.link target) →
      excludedBytes ∉ place.dropLast →
        (∃ node, d.files.statText (Path.descend root place) = .ok node) ∨
        ∃ c, d.files.statText (Path.descend root place) = .error c ∧ c.number = 2) :
    ((∀ place below, (Node.dir es).get? place = some (.dir below) → excludedBytes ∉ place →
        place.length < d.depths.walked) →
      ∃ places : List Place, (d.walk root).result = .ok (places.map (Path.descend root)) ∧
        (places.map (Path.descend root)).Nodup ∧
        ∀ place, place ∈ places ↔ excludedBytes ∉ place.dropLast ∧
          ((∃ data, (Node.dir es).get? place = some (.file data)) ∨
            ∃ target data, (Node.dir es).get? place = some (.link target) ∧
              d.files.statText (Path.descend root place) = .ok (.file data))) ∧
    ∀ place below, (Node.dir es).get? place = some (.dir below) → excludedBytes ∉ place →
      d.depths.walked ≤ place.length → (d.walk root).result = .error .tooDeep := by
  have hgood : ∀ e, ¬d.MeetsBadLink root e := by
    intro e hbad
    obtain ⟨place, target, hget, hgit, hfollow, hnumber⟩ := hbad.exists_place hwell hroot
    obtain ⟨node, hok⟩ | ⟨c, herror, hc⟩ := hlinks place target hget hgit
    · rw [hfollow] at hok
      cases hok
    · rw [hfollow] at herror
      obtain rfl := Except.error.inj herror
      exact hnumber hc
  constructor
  · intro hdepth
    have hlevels : ¬d.GoesTooDeep root := by
      intro hdeep
      obtain ⟨place, below, hget, hgit, hlength⟩ := hdeep.exists_place hwell hroot
      have hlt := hdepth place below hget hgit
      omega
    exact exists_places_of_isOk hwell hroot hdirs
      ((walk_isOk_of_isDirectory (FileSystem.isDirectory_iff.mpr ⟨es, hroot⟩)).mpr ⟨hgood, hlevels⟩)
  · intro place below hget hgit hlevels
    exact walk_of_goesTooDeep hroot hgood
      ⟨es, hroot, overflows_of_get? (by decide) hdirs hget hgit hlevels⟩

/-- A file, a link to nothing, a `.git` with a file in it, and a directory with a link to the one
above it and a file called `.git`. -/
def cyclicEntries : List (Name × Node) :=
  [([0x61], .file []), ([0x67], .link [0x6E]), (excludedBytes, .dir [([0x63], .file [])]),
    ([0x64], .dir [([0x75], .link [0x2E, 0x2E]), (excludedBytes, .file [])])]

def withCycle : Disk := { files := { root := .dir cyclicEntries, working := [] } }

theorem get?_cyclicEntries {place : Place} {node : Node}
    (h : (Node.dir cyclicEntries).get? place = some node) :
    node = .file [] ∨ (∃ es, node = .dir es) ∧
        (place = [] ∨ excludedBytes ∈ place ∨ place = [[0x64]]) ∨
      place = [[0x67]] ∧ node = .link [0x6E] ∨
      place = [[0x64], [0x75]] ∧ node = .link [0x2E, 0x2E] := by
  rcases place with _ | ⟨n, rest⟩
  · rw [Node.get?_nil] at h
    exact .inr (.inl ⟨⟨_, (Option.some.inj h).symm⟩, .inl rfl⟩)
  · obtain ⟨below, hmem, hget⟩ := Node.exists_mem_of_get? h
    simp only [cyclicEntries, List.mem_cons, Prod.mk.injEq, List.not_mem_nil, or_false] at hmem
    rcases hmem with ⟨rfl, rfl⟩ | ⟨rfl, rfl⟩ | ⟨rfl, rfl⟩ | ⟨rfl, rfl⟩
    · exact .inl (Node.get?_leaf_eq_some rfl hget).2
    · obtain ⟨rfl, rfl⟩ := Node.get?_leaf_eq_some rfl hget
      simp
    · rcases rest with _ | ⟨m, rest⟩
      · rw [Node.get?_nil] at hget
        exact .inr (.inl ⟨⟨_, (Option.some.inj hget).symm⟩, by simp⟩)
      · obtain ⟨below, hmem, hget⟩ := Node.exists_mem_of_get? hget
        rw [List.mem_singleton, Prod.mk.injEq] at hmem
        obtain ⟨rfl, rfl⟩ := hmem
        exact .inl (Node.get?_leaf_eq_some rfl hget).2
    · rcases rest with _ | ⟨m, rest⟩
      · rw [Node.get?_nil] at hget
        exact .inr (.inl ⟨⟨_, (Option.some.inj hget).symm⟩, by simp⟩)
      · obtain ⟨below, hmem, hget⟩ := Node.exists_mem_of_get? hget
        simp only [List.mem_cons, Prod.mk.injEq, List.not_mem_nil, or_false] at hmem
        rcases hmem with ⟨rfl, rfl⟩ | ⟨rfl, rfl⟩
        · obtain ⟨rfl, rfl⟩ := Node.get?_leaf_eq_some rfl hget
          simp
        · exact .inl (Node.get?_leaf_eq_some rfl hget).2

theorem wellFormed_cyclicEntries : (Node.dir cyclicEntries).WellFormed := by
  refine .dir (by decide) (by decide) ?_
  simp only [cyclicEntries, List.forall_mem_cons]
  refine ⟨.file _, .link _, .dir (by decide) (by decide) ?_, .dir (by decide) (by decide) ?_,
    by simp⟩
  · simp only [List.forall_mem_cons]
    exact ⟨.file _, by simp⟩
  · simp only [List.forall_mem_cons]
    exact ⟨.link _, .file _, by simp⟩

theorem exists_places_of_walk_withCycle :
    withCycle.files.statText (lit ".") = .ok (.dir cyclicEntries) ∧
      (∃ places : List Place,
        (withCycle.walk (lit ".")).result = .ok (places.map (Path.descend (lit "."))) ∧
        [[0x61]] ∈ places ∧ [[0x64], excludedBytes] ∈ places ∧ [excludedBytes, [0x63]] ∉ places ∧
        [[0x64], [0x75]] ∉ places) ∧
      ({ withCycle with depths := { walked := 1 } }.walk (lit ".")).result = .error .tooDeep := by
  have hroot : withCycle.files.statText (lit ".") = .ok (.dir cyclicEntries) := rfl
  have hplace {place : Place} {below : List (Name × Node)}
      (hget : (Node.dir cyclicEntries).get? place = some (.dir below))
      (hgit : excludedBytes ∉ place) : place = [] ∨ place = [[0x64]] := by
    rcases get?_cyclicEntries hget with h | ⟨-, rfl | h | rfl⟩ | ⟨-, h⟩ | ⟨-, h⟩
    · cases h
    · exact .inl rfl
    · exact absurd h hgit
    · exact .inr rfl
    · cases h
    · cases h
  have hlinks {place : Place} {target : Bytes}
      (hget : (Node.dir cyclicEntries).get? place = some (.link target)) :
      (∃ node, withCycle.files.statText (Path.descend (lit ".") place) = .ok node) ∨
        ∃ c, withCycle.files.statText (Path.descend (lit ".") place) = .error c ∧
          c.number = 2 := by
    rcases get?_cyclicEntries hget with h | ⟨⟨es, h⟩, -⟩ | ⟨rfl, -⟩ | ⟨rfl, -⟩
    · cases h
    · cases h
    · exact .inr ⟨.noEntry, rfl, rfl⟩
    · exact .inl ⟨.dir cyclicEntries, rfl⟩
  have hdirs {place : Place} {below : List (Name × Node)}
      (hget : (Node.dir cyclicEntries).get? place = some (.dir below))
      (hgit : excludedBytes ∉ place) :
      withCycle.listingError? (Path.descend (lit ".") place) = none := by
    rcases hplace hget hgit with rfl | rfl <;> rfl
  obtain ⟨hlisted, -⟩ := exists_places_of_walk wellFormed_cyclicEntries hroot
    (fun _ _ => hdirs) (fun _ _ hget _ => hlinks hget)
  obtain ⟨-, hdeep⟩ := exists_places_of_walk (d := { withCycle with depths := { walked := 1 } })
    wellFormed_cyclicEntries hroot (fun _ _ => hdirs) (fun _ _ hget _ => hlinks hget)
  obtain ⟨places, hwalk, -, hmem⟩ := hlisted fun place below hget hgit => by
    rcases hplace hget hgit with rfl | rfl <;> decide
  refine ⟨hroot, ⟨places, hwalk, ?_, ?_, ?_, ?_⟩, hdeep [[0x64]] _ rfl (by decide) (by decide)⟩
  · exact (hmem _).mpr ⟨by decide, .inl ⟨[], rfl⟩⟩
  · exact (hmem _).mpr ⟨by decide, .inl ⟨[], rfl⟩⟩
  · rw [hmem]
    rintro ⟨hgit, -⟩
    exact hgit (by decide)
  · rw [hmem]
    rintro ⟨-, ⟨data, hget⟩ | ⟨target, data, -, hfile⟩⟩
    · cases hget
    · cases hfile

/-- Directories, one in the other, so many of them below the first, with a file in the innermost. -/
def chain : Nat → Node
  | 0 => .dir [([0x66], .file [0x78])]
  | levels + 1 => .dir [([0x64], chain levels)]

/-- The place so many directories down. -/
def down (levels : Nat) : Place := List.replicate levels [0x64]

section

variable {levels : Nat} {place : Place} {node : Node}

theorem exists_chain_eq_dir (levels : Nat) : ∃ es, chain levels = .dir es := by
  cases levels <;> exact ⟨_, rfl⟩

theorem get?_chain (h : (chain levels).get? place = some node) :
    (∃ data, node = .file data) ∨ ∃ k ≤ levels, place = down k ∧ node = chain (levels - k) := by
  cases place with
  | nil =>
    rw [Node.get?_nil] at h
    exact .inr ⟨0, Nat.zero_le levels, rfl, (Option.some.inj h).symm⟩
  | cons n rest =>
    induction levels generalizing n rest with
    | zero =>
      obtain ⟨below, hmem, hget⟩ := Node.exists_mem_of_get? h
      obtain ⟨-, rfl⟩ := Prod.mk.inj (List.mem_singleton.mp hmem)
      exact .inl ⟨_, (Node.get?_leaf_eq_some rfl hget).2⟩
    | succ levels ih =>
      obtain ⟨below, hmem, hget⟩ := Node.exists_mem_of_get? h
      obtain ⟨rfl, rfl⟩ := Prod.mk.inj (List.mem_singleton.mp hmem)
      cases rest with
      | nil =>
        rw [Node.get?_nil] at hget
        exact .inr ⟨1, Nat.le_add_left 1 levels, rfl, (Option.some.inj hget).symm⟩
      | cons m rest =>
        obtain hfile | ⟨k, hk, hplace, rfl⟩ := ih m rest hget
        · exact .inl hfile
        · refine .inr ⟨k + 1, Nat.succ_le_succ hk, ?_, by rw [Nat.add_sub_add_right]⟩
          rw [hplace]
          rfl

theorem get?_chain_down (levels : Nat) : (chain levels).get? (down levels) = some (chain 0) := by
  induction levels with
  | zero => exact Node.get?_nil _
  | succ levels ih => exact ih

theorem wellFormed_chain (levels : Nat) : (chain levels).WellFormed := by
  induction levels with
  | zero => exact .dir (by decide) (by decide) (List.forall_mem_singleton.mpr (.file _))
  | succ levels ih =>
    refine .dir (by simp) ?_ (List.forall_mem_singleton.mpr ih)
    exact List.forall_mem_singleton.mpr (by decide : Path.IsName [0x64])

end

/-- A disk with nothing but directories and the file in them. -/
def withChain (levels : Nat) : Disk := { files := { root := chain levels, working := [] } }

theorem listingError?_withChain {levels k : Nat} (hk : k ≤ 2000) :
    (withChain levels).listingError? (Path.descend (lit ".") (down k)) = none := by
  have hdot : Path.toBytes (lit ".") = .ok [0x2E] := rfl
  have hnames : ∀ n ∈ down k, 0 ∉ n ∧ n.length ≤ 1 := by
    intro n hn
    rw [List.eq_of_mem_replicate hn]
    decide
  obtain ⟨below, hbelow, hlength⟩ := Path.length_toBytes_descend hnames hdot
  rw [down, List.length_replicate, List.length_singleton] at hlength
  have hfaults : (withChain levels).faults.directories = [] := rfl
  have hlimit : Path.lengthLimit = 4095 := rfl
  rw [listingError?, hfaults, List.lookup_nil]
  simp only [hbelow]
  exact if_neg (by omega)

/-- A walk does not get to the bottom of too many directories, as long as their paths are. -/
theorem walk_withChain {levels : Nat} (hlow : 990 ≤ levels) (hhigh : levels ≤ 2000) :
    (withChain levels).files.isDirectory (lit ".") ∧
      (∀ place es, (withChain levels).files.root.get? place = some (.dir es) →
        (withChain levels).listingError? (Path.descend (lit ".") place) = none) ∧
      (∀ place target, (withChain levels).files.root.get? place ≠ some (.link target)) ∧
      (withChain levels).files.root.get? (down levels ++ [[0x66]]) = some (.file [0x78]) ∧
      ((withChain levels).walk (lit ".")).result = .error .tooDeep := by
  obtain ⟨es, hes⟩ := exists_chain_eq_dir levels
  have hroot : (withChain levels).files.statText (lit ".") = .ok (.dir es) := by
    rw [withChain, hes]
    rfl
  have hdirs : ∀ place es', (chain levels).get? place = some (.dir es') →
      (withChain levels).listingError? (Path.descend (lit ".") place) = none := by
    intro place es' hget
    obtain ⟨data, hfile⟩ | ⟨k, hk, rfl, -⟩ := get?_chain hget
    · cases hfile
    · exact listingError?_withChain (by omega)
  have hlinks : ∀ place target, (chain levels).get? place ≠ some (.link target) := by
    intro place target hget
    obtain ⟨data, hfile⟩ | ⟨k, -, -, hdir⟩ := get?_chain hget
    · cases hfile
    · obtain ⟨es', hes'⟩ := exists_chain_eq_dir (levels - k)
      rw [hes'] at hdir
      cases hdir
  have hbottom := get?_chain_down levels
  refine ⟨FileSystem.isDirectory_iff.mpr ⟨es, hroot⟩, hdirs, hlinks, ?_, ?_⟩
  · exact Node.get?_append_singleton hbottom [0x66]
  · have hwell := wellFormed_chain levels
    rw [hes] at hdirs hlinks hbottom hwell
    have hgood : ∀ e, ¬(withChain levels).MeetsBadLink (lit ".") e := by
      intro e hbad
      obtain ⟨place, target, hget, -⟩ := hbad.exists_place hwell hroot
      exact hlinks place target hget
    have hgit : excludedBytes ∉ down levels := fun hmem =>
      absurd (List.eq_of_mem_replicate hmem) (by decide)
    have hlevels : (withChain levels).depths.walked ≤ (down levels).length := by
      rw [down, List.length_replicate]
      exact hlow
    exact walk_of_goesTooDeep hroot hgood
      ⟨es, hroot, overflows_of_get? (by decide) (fun place es' hget _ => hdirs place es' hget)
        hbottom hgit hlevels⟩

/-- The file below a thousand directories keeps a walk from listing anything. -/
theorem walk_withChain_thousand :
    (withChain 1000).files.isDirectory (lit ".") ∧
      (∀ place es, (withChain 1000).files.root.get? place = some (.dir es) →
        (withChain 1000).listingError? (Path.descend (lit ".") place) = none) ∧
      (∀ place target, (withChain 1000).files.root.get? place ≠ some (.link target)) ∧
      (withChain 1000).files.root.get? (down 1000 ++ [[0x66]]) = some (.file [0x78]) ∧
      ((withChain 1000).walk (lit ".")).result = .error .tooDeep :=
  walk_withChain (by decide) (by decide)

end Disk

end HiddenText
