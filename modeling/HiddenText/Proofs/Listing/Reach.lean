import HiddenText.Listing.Walk
import HiddenText.Proofs.Files.Opens

/-!
# What a walk comes by

A walk enters directories unless they are called `.git` or cannot be listed, and comes by their
entries (`Walker.Reaches`).  It fails with the failure of a link that it reaches, or because it comes
to one directory more, one in the other, than it may enter (`Walker.Overflows`).  It succeeds when
every link that it reaches leads somewhere or to nothing and no directory is too deep.  Directories
that cannot be listed never do harm.

Main statement: `walk_isOk_iff`.
-/

namespace HiddenText

namespace Walker

variable {w : Walker} {levels : Nat}

def visitEntry (w : Walker) (levels : Nat) (directory : Text) (e : Name × Node) :
    Logged (Except WalkError (List Text)) :=
  w.visit levels (Utf8.decodeEscaped e.1) (Path.child directory (Utf8.decodeEscaped e.1)) e.2

theorem visitEntries_eq_map (w : Walker) (levels : Nat) (directory : Text)
    (es : List (Name × Node)) : w.visitEntries levels directory es =
      es.map fun e => (Utf8.decodeEscaped e.1, w.visitEntry levels directory e) := by
  induction es with
  | nil => rfl
  | cons e es ih => rw [visitEntries, ih]; rfl

/-- The contributions of the entries of a directory, in the order in which they are taken. -/
def contributions (w : Walker) (levels : Nat) (directory : Text) (es : List (Name × Node)) :
    List (Logged (Except WalkError (List Text))) :=
  (sortBy nameOrder (w.visitEntries levels directory es)).map Prod.snd

theorem mem_contributions {directory : Text} {es : List (Name × Node)}
    {x : Logged (Except WalkError (List Text))} :
    x ∈ w.contributions levels directory es ↔ ∃ e ∈ es, w.visitEntry levels directory e = x := by
  have hperm := (sortBy_perm nameOrder (w.visitEntries levels directory es)).map Prod.snd
  rw [contributions, hperm.mem_iff, visitEntries_eq_map, List.map_map, List.mem_map]
  rfl

theorem visit_excluded (levels : Nat) (path : Text) (es : List (Name × Node)) :
    w.visit levels excludedName path (.dir es) = ⟨[], .ok []⟩ := by
  cases levels <;> rw [visit, if_pos rfl]

theorem visit_zero {name : Text} (hname : name ≠ excludedName) (path : Text)
    (es : List (Name × Node)) : w.visit 0 name path (.dir es) = ⟨[], .error .tooDeep⟩ := by
  rw [visit, if_neg hname]

theorem visit_unlisted {name path : Text} {e : SystemError} (hname : name ≠ excludedName)
    (hlist : w.listingError? path = some e) (levels : Nat) (es : List (Name × Node)) :
    w.visit (levels + 1) name path (.dir es) = ⟨[.unreadableDirectory path e], .ok []⟩ := by
  rw [visit, if_neg hname, hlist]

theorem visit_listed {name path : Text} (hname : name ≠ excludedName)
    (hlist : w.listingError? path = none) (levels : Nat) (es : List (Name × Node)) :
    (w.visit (levels + 1) name path (.dir es)).result =
      (inTurn (w.contributions levels path es)).result.map List.flatten := by
  rw [visit, if_neg hname, hlist]
  rfl

/-- A walk that starts at a node, under a name and a path, comes by another node under a path. -/
inductive Reaches (w : Walker) : Text → Text → Node → Text → Node → Prop
  | here (name path : Text) (node : Node) : Reaches w name path node path node
  | enter {name path path' : Text} {es : List (Name × Node)} {e : Name × Node} {node' : Node}
      (hname : name ≠ excludedName) (hlist : w.listingError? path = none) (hmem : e ∈ es)
      (h : Reaches w (Utf8.decodeEscaped e.1) (Path.child path (Utf8.decodeEscaped e.1)) e.2 path'
        node') : Reaches w name path (.dir es) path' node'

/-- A walk that has entered as many directories, one in the other, as it may, comes to one more. -/
inductive Overflows (w : Walker) : Nat → Text → Text → Node → Prop
  | here {name : Text} (hname : name ≠ excludedName) (path : Text) (es : List (Name × Node)) :
      Overflows w 0 name path (.dir es)
  | enter {levels : Nat} {name path : Text} {es : List (Name × Node)} {e : Name × Node}
      (hname : name ≠ excludedName) (hlist : w.listingError? path = none) (hmem : e ∈ es)
      (h : Overflows w levels (Utf8.decodeEscaped e.1)
        (Path.child path (Utf8.decodeEscaped e.1)) e.2) :
      Overflows w (levels + 1) name path (.dir es)

/-- A walk that can list more comes to a directory too many as well. -/
theorem Overflows.mono {v : Walker} (hlist : ∀ dir, w.listingError? dir = none →
    v.listingError? dir = none) {levels : Nat} {name path : Text} {node : Node}
    (h : w.Overflows levels name path node) : v.Overflows levels name path node := by
  induction h with
  | here hname path es => exact .here hname path es
  | enter hname hnone hmem _ ih => exact .enter hname (hlist _ hnone) hmem ih

/-- What makes a walk fail is a link that it reaches, or a directory too deep. -/
theorem reaches_of_visit_error {e : WalkError} (node : Node) : ∀ {levels : Nat} {name path : Text},
    (w.visit levels name path node).result = .error e →
      (∃ path' target, w.Reaches name path node path' (.link target) ∧
        w.visitLink path' = .error e) ∨ e = .tooDeep ∧ w.Overflows levels name path node := by
  induction node using Node.induct with
  | file data =>
    intro levels name path h
    rw [visit] at h
    cases h
  | link target =>
    intro levels name path h
    rw [visit] at h
    exact .inl ⟨path, target, .here name path _, h⟩
  | dir es ih =>
    intro levels name path h
    by_cases hname : name = excludedName
    · rw [hname, visit_excluded] at h
      cases h
    cases levels with
    | zero =>
      rw [visit_zero hname] at h
      exact .inr ⟨(Except.error.inj h).symm, .here hname path es⟩
    | succ levels =>
      cases hlist : w.listingError? path with
      | some e' =>
        rw [visit_unlisted hname hlist] at h
        cases h
      | none =>
        rw [visit_listed hname hlist] at h
        cases hturn : (inTurn (w.contributions levels path es)).result with
        | ok found =>
          rw [hturn] at h
          cases h
        | error e' =>
          rw [hturn] at h
          obtain rfl := Except.error.inj h
          obtain ⟨before, x, after, hsplit, -, hx⟩ := inTurn_result_eq_error_iff.mp hturn
          have hmem : x ∈ w.contributions levels path es := by
            rw [hsplit]
            exact List.mem_append_right _ List.mem_cons_self
          obtain ⟨entry, hentry, rfl⟩ := mem_contributions.mp hmem
          obtain ⟨path', target, hreach, hlink⟩ | ⟨rfl, hover⟩ := ih entry hentry hx
          · exact .inl ⟨path', target, .enter hname hlist hentry hreach, hlink⟩
          · exact .inr ⟨rfl, .enter hname hlist hentry hover⟩

theorem isOk_visitEntry {levels : Nat} {name path : Text} {es : List (Name × Node)}
    {e : Name × Node} (hname : name ≠ excludedName) (hlist : w.listingError? path = none)
    (hmem : e ∈ es) (hok : (w.visit (levels + 1) name path (.dir es)).result.isOk) :
    (w.visitEntry levels path e).result.isOk := by
  rw [visit_listed hname hlist] at hok
  cases hturn : (inTurn (w.contributions levels path es)).result with
  | error e' =>
    rw [hturn] at hok
    cases hok
  | ok found =>
    have hall := inTurn_result_eq_ok_iff.mp hturn
    have hresult : (w.visitEntry levels path e).result ∈
        (w.contributions levels path es).map Logged.result :=
      List.mem_map_of_mem (mem_contributions.mpr ⟨e, hmem, rfl⟩)
    rw [hall, List.mem_map] at hresult
    obtain ⟨paths, -, hpaths⟩ := hresult
    rw [← hpaths]
    rfl

/-- A walk succeeds only if it succeeds wherever it comes by. -/
theorem Reaches.isOk_visit {name path path' : Text} {node node' : Node}
    (h : w.Reaches name path node path' node') : ∀ {levels : Nat},
      (w.visit levels name path node).result.isOk →
        ∃ levels' name', (w.visit levels' name' path' node').result.isOk := by
  induction h with
  | here name path node => exact fun {levels} hok => ⟨levels, name, hok⟩
  | enter hname hlist hmem _ ih =>
    intro levels hok
    cases levels with
    | zero =>
      rw [visit_zero hname] at hok
      cases hok
    | succ levels => exact ih (isOk_visitEntry hname hlist hmem hok)

theorem Overflows.not_isOk_visit {levels : Nat} {name path : Text} {node : Node}
    (h : w.Overflows levels name path node) : ¬(w.visit levels name path node).result.isOk := by
  induction h with
  | here hname path es =>
    rw [visit_zero hname]
    nofun
  | enter hname hlist hmem _ ih => exact fun hok => ih (isOk_visitEntry hname hlist hmem hok)

theorem visit_isOk_iff {levels : Nat} {name path : Text} {node : Node} :
    (w.visit levels name path node).result.isOk ↔
      (∀ path' target, w.Reaches name path node path' (.link target) →
        (w.visitLink path').isOk) ∧ ¬w.Overflows levels name path node := by
  constructor
  · intro hok
    refine ⟨?_, fun hover => hover.not_isOk_visit hok⟩
    intro path' target hreach
    obtain ⟨levels', name', hvisit⟩ := hreach.isOk_visit hok
    rwa [visit] at hvisit
  · rintro ⟨hlinks, hlevels⟩
    cases hvisit : (w.visit levels name path node).result with
    | ok paths => rfl
    | error e =>
      obtain ⟨path', target, hreach, hlink⟩ | ⟨-, hover⟩ := reaches_of_visit_error node hvisit
      · have hok := hlinks path' target hreach
        rw [hlink] at hok
        cases hok
      · exact absurd hover hlevels

/-- Only a link that leads nowhere may be missing what it leads to. -/
theorem visitLink_eq_error_iff {path : Text} {e : WalkError} :
    w.visitLink path = .error e ↔
      ∃ c, e = .link ⟨c, path⟩ ∧ w.follow path = .error c ∧ c.number ≠ 2 := by
  rw [visitLink]
  cases w.follow path with
  | ok node => cases node <;> simp
  | error c =>
    simp only
    split
    · next h =>
      simp only [reduceCtorEq, false_iff]
      rintro ⟨c', -, hc, hne⟩
      rw [← Except.error.inj hc] at hne
      exact hne h
    · next h =>
      simp only [Except.error.injEq]
      constructor
      · rintro rfl
        exact ⟨c, rfl, rfl, h⟩
      · rintro ⟨c', rfl, rfl, -⟩
        rfl

end Walker

namespace Disk

/-- The walk below a root comes by a link that can be followed neither to a node nor to a name that
is missing. -/
def MeetsBadLink (d : Disk) (root : Text) (e : SystemError) : Prop :=
  ∃ es target, d.files.statText root = .ok (.dir es) ∧
    d.walker.Reaches [] root (.dir es) e.path (.link target) ∧
    d.files.statText e.path = .error e.cause ∧ e.cause.number ≠ 2

/-- The walk below a root comes by a directory below as many others as it may enter. -/
def GoesTooDeep (d : Disk) (root : Text) : Prop :=
  ∃ es, d.files.statText root = .ok (.dir es) ∧
    d.walker.Overflows d.depths.walked [] root (.dir es)

theorem walk_of_not_isDirectory {d : Disk} {root : Text} (h : ¬d.files.isDirectory root) :
    d.walk root = ⟨[], .error (.listing (.notDirectory root))⟩ := by
  rw [FileSystem.isDirectory_iff] at h
  rw [walk]
  split
  · next es hstat => exact absurd ⟨es, hstat⟩ h
  · rfl

theorem walk_of_dir {d : Disk} {root : Text} {es : List (Name × Node)}
    (h : d.files.statText root = .ok (.dir es)) :
    (d.walk root).result = (d.walker.visit d.depths.walked [] root (.dir es)).result := by
  rw [walk, h]
  simp only
  rw [Walker.walk]
  rcases hvisit : d.walker.visit d.depths.walked [] root (.dir es) with ⟨log, e | paths⟩ <;> rfl

/-- A walk below a directory fails with a link that it comes by, or too deep. -/
theorem meetsBadLink_of_walk {d : Disk} {root : Text} {e : WalkError}
    (hdir : d.files.isDirectory root) (h : (d.walk root).result = .error e) :
    (∃ e', e = .link e' ∧ d.MeetsBadLink root e') ∨ e = .tooDeep ∧ d.GoesTooDeep root := by
  obtain ⟨es, hstat⟩ := FileSystem.isDirectory_iff.mp hdir
  rw [walk_of_dir hstat] at h
  obtain ⟨path', target, hreach, hlink⟩ | ⟨rfl, hover⟩ := Walker.reaches_of_visit_error _ h
  · obtain ⟨c, rfl, hfollow, hnumber⟩ := Walker.visitLink_eq_error_iff.mp hlink
    exact .inl ⟨⟨c, path'⟩, rfl, es, target, hstat, hreach, hfollow, hnumber⟩
  · exact .inr ⟨rfl, es, hstat, hover⟩

/-- Below a directory only bad links and too many levels do harm. -/
theorem walk_isOk_of_isDirectory {d : Disk} {root : Text} (hdir : d.files.isDirectory root) :
    (d.walk root).result.isOk ↔ (∀ e, ¬d.MeetsBadLink root e) ∧ ¬d.GoesTooDeep root := by
  obtain ⟨es, hstat⟩ := FileSystem.isDirectory_iff.mp hdir
  constructor
  · intro hok
    rw [walk_of_dir hstat] at hok
    obtain ⟨hlinks, hlevels⟩ := Walker.visit_isOk_iff.mp hok
    constructor
    · rintro e ⟨es', target, hstat', hreach, hfollow, hnumber⟩
      rw [hstat] at hstat'
      obtain rfl := Node.dir.inj (Except.ok.inj hstat')
      have hlink := hlinks e.path target hreach
      rw [Walker.visitLink_eq_error_iff.mpr ⟨e.cause, rfl, hfollow, hnumber⟩] at hlink
      cases hlink
    · rintro ⟨es', hstat', hover⟩
      rw [hstat] at hstat'
      obtain rfl := Node.dir.inj (Except.ok.inj hstat')
      exact hlevels hover
  · rintro ⟨hlinks, hlevels⟩
    cases hwalk : (d.walk root).result with
    | ok paths => rfl
    | error e =>
      obtain ⟨e', -, hbad⟩ | ⟨-, hdeep⟩ := meetsBadLink_of_walk hdir hwalk
      · exact absurd hbad (hlinks e')
      · exact absurd hdeep hlevels

/-- **A walk fails only for a bad root, a bad link or too many levels.**  It fails for the root just
in case the root leads to no directory.  Below a directory it gives a list unless it comes by a link
that cannot be followed for another reason than that something is missing, or by a directory below
as many others as it may enter, and then it fails for one of these.  Directories that cannot be
listed, at any depth, do no harm. -/
theorem walk_isOk_iff (d : Disk) (root : Text) :
    (∀ e, (d.walk root).result = .error (.listing e) ↔
      e = .notDirectory root ∧ ¬d.files.isDirectory root) ∧
    (∀ e, (d.walk root).result = .error (.link e) → d.MeetsBadLink root e) ∧
    ((d.walk root).result = .error .tooDeep → d.GoesTooDeep root) ∧
    ((d.walk root).result.isOk ↔ d.files.isDirectory root ∧ (∀ e, ¬d.MeetsBadLink root e) ∧
      ¬d.GoesTooDeep root) := by
  by_cases hdir : d.files.isDirectory root
  · refine ⟨?_, ?_, ?_, ?_⟩
    · intro e
      constructor
      · intro h
        obtain ⟨e', he, -⟩ | ⟨he, -⟩ := meetsBadLink_of_walk hdir h <;> cases he
      · rintro ⟨-, hnot⟩
        exact absurd hdir hnot
    · intro e h
      obtain ⟨e', he, hbad⟩ | ⟨he, -⟩ := meetsBadLink_of_walk hdir h
      · cases he
        exact hbad
      · cases he
    · intro h
      obtain ⟨e', he, -⟩ | ⟨-, hdeep⟩ := meetsBadLink_of_walk hdir h
      · cases he
      · exact hdeep
    · rw [walk_isOk_of_isDirectory hdir, and_iff_right hdir]
  · rw [walk_of_not_isDirectory hdir]
    refine ⟨?_, nofun, nofun, ?_⟩
    · intro e
      simp only [Except.error.injEq, WalkError.listing.injEq]
      constructor
      · rintro rfl
        exact ⟨rfl, hdir⟩
      · rintro ⟨rfl, -⟩
        rfl
    · simp [hdir, Except.isOk, Except.toBool]

/-- A directory with a file and a link to itself. -/
def withLoop : Disk :=
  { files := { root := .dir [([0x61], .file []), ([0x6C], .link [0x6C])], working := [] } }

/-- One link that leads back to itself ends the walk of all the other files. -/
theorem walk_withLoop :
    withLoop.files.isDirectory (lit ".") ∧
      (withLoop.walk (lit ".")).result = .error (.link ⟨.tooManyLinks, lit "./l"⟩) :=
  ⟨by decide +kernel, rfl⟩

end Disk

end HiddenText
