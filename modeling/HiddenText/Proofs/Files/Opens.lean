import HiddenText.Proofs.Files.Leads
import HiddenText.Proofs.Files.Steps

/-!
# What a path opens

`FileSystem.Opens` says at which place a lookup of a text ends.  Reading a file and asking for a
directory depend on that place alone (`statText_eq_ok_iff`, `read_eq_ok_iff`).  A path leads through
what stands in front of its last name (`Leads.split`), so that a directory has a parent, and making
a directory that is there changes nothing (`createDirectories_of_isDirectory`).
-/

namespace HiddenText

namespace Node

variable {root : Node} {purpose : Purpose} {links : Nat} {place : Place} {steps : List Path.Step}
  {target : Target}

theorem Leads.exists_dir {step : Path.Step}
    (h : Leads root purpose links place (step :: steps) target) :
    ∃ es, root.get? place = some (.dir es) := by
  cases h <;> exact ⟨_, ‹_›⟩

theorem Admits.of_append {n : Name} {s t : List Path.Step} (h : Admits .use n (s ++ t)) :
    Admits .use n s := by
  refine ⟨?_, h.2⟩
  rintro ⟨huse, -⟩
  cases huse

/-- The first steps of a path lead somewhere, and the others from there to the target. -/
theorem Leads.split (h : Leads root .use links place steps target) :
    ∀ s t, steps = s ++ t → t ≠ [] → ∃ middle fewer,
      Leads root .use links place s (.found middle) ∧ Leads root .use fewer middle t target := by
  induction h with
  | found links place =>
    intro s t hsteps ht
    exact absurd (List.append_eq_nil_iff.mp hsteps.symm).2 ht
  | @here links place es rest target hdir hrest ih =>
    intro s t hsteps ht
    cases s with
    | nil =>
      obtain rfl : _ = t := hsteps
      exact ⟨place, _, .found _ _, .here hdir hrest⟩
    | cons step s =>
      obtain ⟨rfl, htail⟩ := List.cons.inj hsteps
      obtain ⟨middle, fewer, hfirst, hlast⟩ := ih s t htail ht
      exact ⟨middle, fewer, .here hdir hfirst, hlast⟩
  | @slash links place es rest target hdir hrest ih =>
    intro s t hsteps ht
    cases s with
    | nil =>
      obtain rfl : _ = t := hsteps
      exact ⟨place, _, .found _ _, .slash hdir hrest⟩
    | cons step s =>
      obtain ⟨rfl, htail⟩ := List.cons.inj hsteps
      obtain ⟨middle, fewer, hfirst, hlast⟩ := ih s t htail ht
      exact ⟨middle, fewer, .slash hdir hfirst, hlast⟩
  | @up links place es rest target hdir hrest ih =>
    intro s t hsteps ht
    cases s with
    | nil =>
      obtain rfl : _ = t := hsteps
      exact ⟨place, _, .found _ _, .up hdir hrest⟩
    | cons step s =>
      obtain ⟨rfl, htail⟩ := List.cons.inj hsteps
      obtain ⟨middle, fewer, hfirst, hlast⟩ := ih s t htail ht
      exact ⟨middle, fewer, .up hdir hfirst, hlast⟩
  | @free links place es n hdir hn hlookup =>
    intro s t hsteps ht
    cases s with
    | nil =>
      obtain rfl : _ = t := hsteps
      exact ⟨place, links, .found _ _, .free hdir hn hlookup⟩
    | cons step s =>
      exact absurd (List.append_eq_nil_iff.mp (List.cons.inj hsteps).2.symm).2 ht
  | entry _ _ _ hentry => cases hentry
  | @link links place es n dest rest target hdir hn hlookup hfollow hrest ih =>
    intro s t hsteps ht
    cases s with
    | nil =>
      obtain rfl : _ = t := hsteps
      exact ⟨place, _, .found _ _, .link hdir hn hlookup hfollow hrest⟩
    | cons step s =>
      obtain ⟨rfl, rfl⟩ := List.cons.inj hsteps
      -- the steps of the link come in front of those that are split
      obtain ⟨middle, fewer, hfirst, hlast⟩ :=
        ih (Path.steps dest ++ s) t (List.append_assoc _ _ _).symm ht
      refine ⟨middle, fewer, .link hdir hn.of_append hlookup ?_ hfirst, hlast⟩
      rintro ⟨huse, -⟩
      cases huse
  | @enter links place es n node rest target hdir hn hlookup hnode hrest ih =>
    intro s t hsteps ht
    cases s with
    | nil =>
      obtain rfl : _ = t := hsteps
      exact ⟨place, _, .found _ _, .enter hdir hn hlookup hnode hrest⟩
    | cons step s =>
      obtain ⟨rfl, rfl⟩ := List.cons.inj hsteps
      obtain ⟨middle, fewer, hfirst, hlast⟩ := ih s t rfl ht
      exact ⟨middle, fewer, .enter hdir hn.of_append hlookup hnode hfirst, hlast⟩

theorem Admits.toUse {n : Name} {rest : List Path.Step} (h : Admits purpose n rest) :
    Admits .use n rest := by
  refine ⟨?_, h.2⟩
  rintro ⟨huse, -⟩
  cases huse

/-- A name that is free for one purpose is free for use. -/
theorem Leads.use_of_free (h : Leads root purpose links place steps target) :
    ∀ directory n, target = .free directory n → Leads root .use links place steps target := by
  induction h with
  | found _ _ =>
    intro directory n htarget
    cases htarget
  | free hdir hn hlookup =>
    intro directory n _
    exact .free hdir hn.toUse hlookup
  | entry _ _ _ _ =>
    intro directory n htarget
    cases htarget
  | here hdir _ ih => exact fun directory n htarget => .here hdir (ih directory n htarget)
  | slash hdir _ ih => exact fun directory n htarget => .slash hdir (ih directory n htarget)
  | up hdir _ ih => exact fun directory n htarget => .up hdir (ih directory n htarget)
  | link hdir hn hlookup _ _ ih =>
    intro directory n htarget
    refine .link hdir hn.toUse hlookup ?_ (ih directory n htarget)
    rintro ⟨huse, -⟩
    cases huse
  | enter hdir hn hlookup hnode _ ih =>
    intro directory n htarget
    exact .enter hdir hn.toUse hlookup hnode (ih directory n htarget)

/-- A slash at the end of a path leads nowhere else. -/
theorem Leads.named {path : Bytes} {q : Place}
    (h : Leads root .use links place (Path.steps path) (.found q)) :
    Leads root .use links place (Path.named path) (.found q) := by
  rcases Path.steps_eq path with hsteps | ⟨hsteps, -⟩
  · rwa [← hsteps]
  · obtain ⟨middle, fewer, hfirst, hlast⟩ := h.split _ _ hsteps (List.cons_ne_nil _ _)
    cases hlast with
    | slash _ hrest =>
      cases hrest with
      | found _ _ => exact hfirst

end Node

namespace FileSystem

variable {fs : FileSystem} {path : Text} {place : Place} {node : Node}

/-- A path is one of the node at a place. -/
def Opens (fs : FileSystem) (path : Text) (place : Place) : Prop :=
  ∃ bytes, Path.toBytes path = .ok bytes ∧ fs.find .use bytes = .ok (.found place)

theorem Opens.unique {place' : Place} (h : fs.Opens path place) (h' : fs.Opens path place') :
    place = place' := by
  obtain ⟨bytes, hbytes, hfind⟩ := h
  obtain ⟨bytes', hbytes', hfind'⟩ := h'
  rw [hbytes] at hbytes'
  obtain rfl := Except.ok.inj hbytes'
  rw [hfind] at hfind'
  exact Target.found.inj (Except.ok.inj hfind')

theorem Opens.leads (h : fs.Opens path place) :
    ∃ bytes, Path.toBytes path = .ok bytes ∧ bytes ≠ [] ∧ bytes.length ≤ Path.lengthLimit ∧
      Node.Leads fs.root .use linkLimit (if Path.isAbsolute bytes then [] else fs.working)
        (Path.named bytes) (.found place) := by
  obtain ⟨bytes, hbytes, hfind⟩ := h
  obtain ⟨hne, hlength, hleads⟩ := leads_of_find hfind
  exact ⟨bytes, hbytes, hne, hlength, hleads.named⟩

theorem statText_eq_ok_iff :
    fs.statText path = .ok node ↔ ∃ place, fs.Opens path place ∧ fs.root.get? place = some node := by
  rw [statText]
  constructor
  · intro h
    split at h
    · next bytes hbytes =>
      rw [stat] at h
      split at h
      · cases h
      · cases h
      · next place hfind =>
        split at h
        · next node' hget =>
          rw [Except.ok.inj h] at hget
          exact ⟨place, ⟨bytes, hbytes, hfind⟩, hget⟩
        · cases h
    · cases h
  · rintro ⟨place, ⟨bytes, hbytes, hfind⟩, hget⟩
    simp only [hbytes, stat, hfind, hget]

theorem read_eq_ok_iff {data : Bytes} :
    fs.read path = .ok data ↔ fs.statText path = .ok (.file data) := by
  rw [read, statText]
  cases Path.toBytes path with
  | error b => simp
  | ok bytes =>
    simp only
    cases fs.stat bytes with
    | error c => simp
    | ok node => cases node <;> simp

theorem isDirectory_iff : fs.isDirectory path ↔ ∃ es, fs.statText path = .ok (.dir es) := by
  rw [isDirectory, node?]
  cases fs.statText path with
  | error c => simp [Except.toOption]
  | ok node => cases node <;> simp [Except.toOption, Node.isDir]

/-- Where the parent of a path leads there is a directory. -/
theorem exists_node_parent {place : Place} (h : fs.Opens path place)
    (hparent : (parentAndBase path).1 ≠ []) (hbase : (parentAndBase path).2 ≠ []) :
    (fs.node? (parentAndBase path).1).isSome := by
  obtain ⟨bytes, hbytes, -, hlength, hleads⟩ := h.leads
  obtain ⟨p, last, hp, hpne, hplength, habsolute, hsteps, hnamed, hlast⟩ :=
    toBytes_parentAndBase hbytes hparent hbase
  obtain ⟨middle, fewer, hfirst, hrest⟩ := hleads.split _ _ hnamed hlast
  obtain ⟨step, rest, rfl⟩ := List.exists_cons_of_ne_nil hlast
  obtain ⟨es, hdir⟩ := hrest.exists_dir
  rw [← habsolute, ← hsteps] at hfirst
  have hopens : fs.Opens (parentAndBase path).1 middle :=
    ⟨p, hp, find_of_leads hpne (hplength.trans hlength) hfirst⟩
  rw [node?, statText_eq_ok_iff.mpr ⟨middle, hopens, hdir⟩]
  rfl

theorem createDirectory_of_opens (h : fs.Opens path place) :
    ∃ e, fs.createDirectory path = ⟨fs, .error (.system e)⟩ := by
  obtain ⟨bytes, hbytes, -, hlength, hleads⟩ := h.leads
  obtain ⟨habsolute, hsteps⟩ := steps_trimmed bytes
  rw [createDirectory, createEntry, hbytes]
  simp only
  rw [if_neg (Nat.not_lt_of_le hlength), ← trimmed]
  cases hentry : fs.find .entry (trimmed bytes) with
  | error c => exact ⟨_, rfl⟩
  | ok target =>
    cases target with
    | found place => exact ⟨_, rfl⟩
    | free directory n =>
      have hfree := (leads_of_find hentry).2.2.use_of_free directory n rfl
      rw [habsolute, hsteps] at hfree
      cases hleads.unique hfree

theorem ensureDirectory_of_isDirectory (h : fs.isDirectory path) :
    fs.ensureDirectory path = ⟨fs, .ok ()⟩ := by
  obtain ⟨es, hstat⟩ := isDirectory_iff.mp h
  obtain ⟨place, hopens, -⟩ := statText_eq_ok_iff.mp hstat
  obtain ⟨e, hcreate⟩ := createDirectory_of_opens hopens
  rw [ensureDirectory, hcreate]
  exact if_pos h

/-- **Making a directory that is there changes nothing.** -/
theorem createDirectories_of_isDirectory (h : fs.isDirectory path) (calls : Nat) :
    fs.createDirectories calls path = ⟨fs, .ok ()⟩ := by
  obtain ⟨es, hstat⟩ := isDirectory_iff.mp h
  obtain ⟨place, hopens, -⟩ := statText_eq_ok_iff.mp hstat
  have hthere : (parentAndBase path).1.isEmpty || (parentAndBase path).2.isEmpty ||
      (fs.node? (parentAndBase path).1).isSome := by
    simp only [Bool.or_eq_true, List.isEmpty_iff]
    by_cases hparent : (parentAndBase path).1 = []
    · exact .inl (.inl hparent)
    · by_cases hbase : (parentAndBase path).2 = []
      · exact .inl (.inr hbase)
      · exact .inr (exists_node_parent hopens hparent hbase)
  unfold createDirectories
  simp only [hthere, if_true]
  rw [ensureDirectory_of_isDirectory h]
  rfl

end FileSystem

end HiddenText
