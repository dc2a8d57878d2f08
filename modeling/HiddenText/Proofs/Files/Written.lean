import HiddenText.Proofs.Files.Opens
import HiddenText.Proofs.Files.Places
import HiddenText.Report.Output

/-!
# A written file is read back

A path is looked up once to open a file for writing, and again to read it.  The second lookup takes
the steps of the first one, through directories and links that are still there, and ends at the file
where the first one ended at a file or at a free name (`Leads.written`).  So what has been written
is what is read, also through links and dots (`FileSystem.read_of_write`), and a report that could
be written stands in its file (`Report.read_of_write`).  Putting a report out over a file that can be
opened depends on nothing but the report (`Report.emit_of_takes`).
-/

namespace HiddenText

/-- The place that a target stands for. -/
def Target.place : Target → Place
  | .found place => place
  | .free directory name => directory ++ [name]

namespace Node

variable {root root' : Node} {purpose : Purpose} {target : Target} {links : Nat} {place : Place}
  {steps : List Path.Step}

/-- A free name is one of a directory that does not have it. -/
theorem Leads.lookup_free (h : Leads root purpose links place steps target) :
    ∀ directory n, target = .free directory n →
      ∃ es, root.get? directory = some (.dir es) ∧ es.lookup n = none := by
  induction h with
  | found _ _ =>
    intro directory n htarget
    cases htarget
  | free hdir _ hlookup =>
    intro directory n htarget
    cases htarget
    exact ⟨_, hdir, hlookup⟩
  | entry _ _ _ _ =>
    intro directory n htarget
    cases htarget
  | here _ _ ih => exact ih
  | slash _ _ ih => exact ih
  | up _ _ ih => exact ih
  | link _ _ _ _ _ ih => exact ih
  | enter _ _ _ _ _ ih => exact ih

/-- Every node of the first tree is there in the second, with its kind. -/
def Keeps (root root' : Node) : Prop :=
  ∀ q a, root.get? q = some a → ∃ b, root'.get? q = some b ∧ SameKind a b

namespace Keeps

variable {q : Place} {es : List (Name × Node)}

theorem dir (h : Keeps root root') (hdir : root.get? q = some (.dir es)) :
    ∃ es', root'.get? q = some (.dir es') := by
  obtain ⟨b, hb, hkind⟩ := h q _ hdir
  cases hkind with
  | dir _ es' => exact ⟨es', hb⟩

theorem lookup (h : Keeps root root') (hdir : root.get? q = some (.dir es))
    {es' : List (Name × Node)} (hdir' : root'.get? q = some (.dir es')) {n : Name} {a : Node}
    (hlookup : es.lookup n = some a) : ∃ b, es'.lookup n = some b ∧ SameKind a b := by
  rw [← get?_append_singleton hdir] at hlookup
  obtain ⟨b, hb, hkind⟩ := h _ a hlookup
  rw [get?_append_singleton hdir'] at hb
  exact ⟨b, hb, hkind⟩

end Keeps

/-- A lookup that follows every link leads to the same place in a tree that has kept the nodes and
has something else than a link where a free name was found. -/
theorem Leads.kept {purpose' : Purpose} (hkeeps : Keeps root root') (hentry : purpose ≠ .entry)
    (hentry' : purpose' ≠ .entry)
    (hadmits : ∀ n rest, Admits purpose n rest → Admits purpose' n rest)
    (h : Leads root purpose links place steps target)
    (hfree : ∀ directory n, target = .free directory n →
      ∃ b, root'.get? (directory ++ [n]) = some b ∧ ∀ dest, b ≠ .link dest) :
    Leads root' purpose' links place steps (.found target.place) := by
  induction h with
  | found links place => exact .found links place
  | here hdir _ ih =>
    obtain ⟨es', hdir'⟩ := hkeeps.dir hdir
    exact .here hdir' (ih hfree)
  | slash hdir _ ih =>
    obtain ⟨es', hdir'⟩ := hkeeps.dir hdir
    exact .slash hdir' (ih hfree)
  | up hdir _ ih =>
    obtain ⟨es', hdir'⟩ := hkeeps.dir hdir
    exact .up hdir' (ih hfree)
  | @free _ place _ n hdir hn _ =>
    obtain ⟨es', hdir'⟩ := hkeeps.dir hdir
    obtain ⟨b, hb, hnode⟩ := hfree place n rfl
    rw [get?_append_singleton hdir'] at hb
    exact .enter hdir' (hadmits _ _ hn) hb hnode (.found _ _)
  | entry _ _ _ h => exact absurd h hentry
  | link hdir hn hlookup _ _ ih =>
    obtain ⟨es', hdir'⟩ := hkeeps.dir hdir
    obtain ⟨b, hlookup', hkind⟩ := hkeeps.lookup hdir hdir' hlookup
    cases hkind
    exact .link hdir' (hadmits _ _ hn) hlookup' (fun h => hentry' h.1) (ih hfree)
  | enter hdir hn hlookup hnode _ ih =>
    obtain ⟨es', hdir'⟩ := hkeeps.dir hdir
    obtain ⟨b, hlookup', hkind⟩ := hkeeps.lookup hdir hdir' hlookup
    refine .enter hdir' (hadmits _ _ hn) hlookup' ?_ (ih hfree)
    rintro dest rfl
    cases hkind
    exact hnode dest rfl

theorem Leads.written {data : Bytes} (hkeeps : Keeps root root')
    (hplace : root'.get? target.place = some (.file data))
    (h : Leads root .create links place steps target) :
    Leads root' .use links place steps (.found target.place) := by
  apply h.kept hkeeps (by decide) (by decide) fun n rest hn => hn.toUse
  rintro directory n rfl
  exact ⟨_, hplace, nofun⟩

end Node

namespace FileSystem

/-- A place that is opened for writing holds a file, or is a free name in a directory. -/
theorem exists_target_of_openForWriting {fs : FileSystem} {path : Text} {place : Place}
    (h : fs.openForWriting path = .ok place) (data : Bytes) :
    ∃ bytes target, Path.toBytes path = .ok bytes ∧ fs.find .create bytes = .ok target ∧
      target.place = place ∧ fs.root.IsOpen place ∧
      ∀ a, fs.root.get? place = some a → Node.SameKind a (.file data) := by
  rw [openForWriting] at h
  split at h
  · cases h
  · next bytes hbytes =>
    split at h
    · cases h
    · next directory n hfind =>
      obtain rfl := Except.ok.inj h
      obtain ⟨es, hdir, hlookup⟩ := (leads_of_find hfind).2.2.lookup_free directory n rfl
      refine ⟨bytes, _, hbytes, hfind, rfl, .inr ⟨es, ?_⟩, ?_⟩
      · rw [List.dropLast_concat]
        exact hdir
      · intro a ha
        rw [Node.get?_append_singleton hdir, hlookup] at ha
        cases ha
    · next found hfind =>
      split at h
      · next old hget =>
        obtain rfl := Except.ok.inj h
        refine ⟨bytes, _, hbytes, hfind, rfl, Node.isOpen_of_get? hget, ?_⟩
        intro a ha
        rw [hget] at ha
        obtain rfl := Option.some.inj ha
        exact .file old data
      · cases h

theorem Opens.kept {fs fs' : FileSystem} {path : Text} {place : Place} (h : fs.Opens path place)
    (hworking : fs'.working = fs.working) (hkeeps : Node.Keeps fs.root fs'.root) :
    fs'.Opens path place := by
  obtain ⟨bytes, hbytes, hfind⟩ := h
  obtain ⟨hne, hlength, hleads⟩ := leads_of_find hfind
  refine ⟨bytes, hbytes, find_of_leads hne hlength ?_⟩
  rw [hworking]
  apply hleads.kept hkeeps (by decide) (by decide) fun _ _ hn => hn
  intro directory n htarget
  cases htarget

/-- A file that has been opened for writing stands at a place that its path opens. -/
theorem opens_of_openForWriting {fs : FileSystem} {path : Text} {place : Place}
    (h : fs.openForWriting path = .ok place) (data : Bytes) :
    (fs.put place (.file data)).Opens path place ∧
      (fs.put place (.file data)).root.get? place = some (.file data) := by
  obtain ⟨bytes, target, hbytes, hfind, rfl, hplace, hkind⟩ :=
    exists_target_of_openForWriting h data
  have hself := Node.get?_set_self (.file data) target.place fs.root hplace
  have hkeeps : Node.Keeps fs.root (fs.root.set target.place (.file data)) :=
    Node.get?_set_file data target.place fs.root hkind
  obtain ⟨hne, hlength, hleads⟩ := leads_of_find hfind
  exact ⟨⟨bytes, hbytes, find_of_leads hne hlength (hleads.written hkeeps hself)⟩, hself⟩

/-- A file that could be written holds what was written, by the same path. -/
theorem read_of_write {fs fs' : FileSystem} {path : Text} {data : Bytes}
    (h : fs.write path data = ⟨fs', .ok ()⟩) : fs'.read path = .ok data := by
  rw [write] at h
  split at h
  · cases h
  · next place hopen =>
    obtain ⟨rfl, -⟩ := Changed.mk.inj h
    obtain ⟨hopens, hget⟩ := opens_of_openForWriting hopen data
    exact read_eq_ok_iff.mpr (statText_eq_ok_iff.mpr ⟨place, hopens, hget⟩)

end FileSystem

namespace Disk

variable {d : Disk} {path : Text} {data : Except WriteError Bytes}

/-- Writing to a disk changes nothing, or comes to what the data come to. -/
theorem write_cases (d : Disk) (path : Text) (data : Except WriteError Bytes) :
    (∃ e, d.write path data = ⟨d.files, .error (.access e)⟩) ∨
      ∃ place, d.files.openForWriting path = .ok place ∧ d.write path data =
        ⟨d.files.put place (.file (data.toOption.getD [])), data.map fun _ => ()⟩ := by
  rw [write]
  cases d.faults.files.lookup path with
  | some c => exact .inl ⟨_, rfl⟩
  | none =>
    cases d.files.openForWriting path with
    | error e => exact .inl ⟨e, rfl⟩
    | ok place =>
      right
      refine ⟨place, rfl, ?_⟩
      cases data <;> rfl

/-- Data that could be written to a disk are what the file holds then. -/
theorem read_of_write {fs : FileSystem} (h : d.write path data = ⟨fs, .ok ()⟩) :
    ∃ bytes, data = .ok bytes ∧ fs.read path = .ok bytes := by
  obtain ⟨e, hwrite⟩ | ⟨place, hopen, hwrite⟩ := write_cases d path data
  · rw [hwrite] at h
    cases h
  · rw [hwrite] at h
    obtain ⟨rfl, hdata⟩ := Changed.mk.inj h
    cases data with
    | error e => cases hdata
    | ok bytes =>
      have hwritten : d.files.write path bytes = ⟨d.files.put place (.file bytes), .ok ()⟩ := by
        rw [FileSystem.write, hopen]
      exact ⟨bytes, rfl, FileSystem.read_of_write hwritten⟩

/-- A path for writing the file at a place, in a directory that is there. -/
structure Takes (d : Disk) (path : Text) (place : Place) : Prop where
  parent : Path.parent path = [] ∨ d.files.isDirectory (Path.parent path)
  sound : d.faults.files.lookup path = none
  opened : d.files.openForWriting path = .ok place

theorem Takes.read {place : Place} (h : d.Takes path place) (data : Bytes) :
    (d.files.put place (.file data)).read path = .ok data := by
  have hwrite : d.files.write path data = ⟨d.files.put place (.file data), .ok ()⟩ := by
    rw [FileSystem.write, h.opened]
  exact FileSystem.read_of_write hwrite

end Disk

namespace Report

variable {r : Report} {bytes : Bytes}

/-- The report file is to hold the text of the report, if its numbers can be written. -/
theorem data_eq_ok_iff : r.data = .ok bytes ↔
    (∀ n ∈ r.numbers, Numeral.isPrintable n) ∧ Utf8.encode? r.render = some bytes := by
  rw [data, ← List.all_eq_true]
  split
  · next h => cases Utf8.encode? r.render <;> simp [h]
  · next h => simp [h]

theorem data_of_not_isPrintable {n : Int} (hn : n ∈ r.numbers) (h : ¬Numeral.isPrintable n) :
    r.data = .error .tooManyDigits := by
  have hall : ¬r.numbers.all Numeral.isPrintable := fun hall => h (List.all_eq_true.mp hall n hn)
  rw [data, if_neg hall]

/-- A report that could be written stands in its file. -/
theorem read_of_write {d : Disk} {path : Text} (h : (r.write d path).outcome = .ok ()) :
    ∃ bytes, r.data = .ok bytes ∧ (r.write d path).files.read path = .ok bytes := by
  rw [write] at h ⊢
  split at h
  · cases h
  · next fs hmade =>
    split at h
    · cases h
    · next fs' hwrite =>
      exact Disk.read_of_write hwrite

/-! Putting a report out does no more to files than writing it. -/

theorem files_emit (r : Report) (d : Disk) (path : Text) :
    (r.emit d path).files = (r.write d path).files := by
  rw [emit]
  rcases r.write d path with ⟨fs, log, e | _⟩ <;> rfl

theorem emit_of_write_error {d : Disk} {path : Text} {e : WriteError}
    (h : (r.write d path).outcome = .error e) :
    (r.emit d path).shown = [] ∧ (r.emit d path).outcome = .error e := by
  rw [emit]
  rcases hwrite : r.write d path with ⟨fs, log, e' | _⟩
  · rw [hwrite] at h
    exact ⟨rfl, congrArg Except.error (Except.error.inj h)⟩
  · rw [hwrite] at h
    cases h

theorem emit_of_written {d : Disk} {path : Text} (h : (r.write d path).outcome = .ok ()) :
    (r.emit d path).shown = (r.told path).1 ∧ (r.emit d path).outcome = (r.told path).2 := by
  rw [emit]
  rcases hwrite : r.write d path with ⟨fs, log, e | _⟩
  · rw [hwrite] at h
    cases h
  · exact ⟨rfl, rfl⟩

/-- What comes to a status has been written and shown. -/
theorem emit_eq_ok {d : Disk} {path : Text} {status : Nat}
    (h : (r.emit d path).outcome = .ok status) : (r.write d path).outcome = .ok () ∧
      (r.emit d path).shown = r.summary path ∧ status = r.exitStatus := by
  cases hwrite : (r.write d path).outcome with
  | error e =>
    rw [(emit_of_write_error hwrite).2] at h
    cases h
  | ok _ =>
    obtain ⟨hshown, houtcome⟩ := emit_of_written hwrite
    rw [houtcome, told] at h
    rw [hshown, told]
    split at h
    · next htotal =>
      rw [if_pos htotal]
      exact ⟨rfl, rfl, (Except.ok.inj h).symm⟩
    · cases h

theorem shown_of_emit_error {d : Disk} {path : Text} {e : WriteError}
    (h : (r.emit d path).outcome = .error e) : (r.emit d path).shown = [] := by
  cases hwrite : (r.write d path).outcome with
  | error e' => exact (emit_of_write_error hwrite).1
  | ok _ =>
    obtain ⟨hshown, houtcome⟩ := emit_of_written hwrite
    rw [houtcome, told] at h
    rw [hshown, told]
    split at h
    · cases h
    · next htotal => rw [if_neg htotal]

/-! Over a file that can be opened, a report comes to what it comes to by itself. -/

/-- The bytes that a report leaves in its file: none if it cannot be written. -/
def stored (r : Report) : Bytes := r.data.toOption.getD []

/-- What is shown of a report whose file can be opened, and its status. -/
def settled (r : Report) (path : Text) : Text × Except WriteError Nat :=
  match r.data with
  | .ok _ => r.told path
  | .error e => ([], .error e)

theorem write_of_takes {d : Disk} {path : Text} {place : Place} (r : Report)
    (h : d.Takes path place) :
    (r.write d path).files = d.files.put place (.file r.stored) ∧
      (r.write d path).outcome = r.data.map fun _ => () := by
  have hmade : (if (Path.parent path).isEmpty = true then ⟨d.files, .ok ()⟩
      else d.files.createDirectories d.depths.made (Path.parent path) :
        Changed Unit WriteError) = ⟨d.files, .ok ()⟩ := by
    rcases h.parent with hnil | hdir
    · rw [hnil]
      rfl
    · rw [FileSystem.createDirectories_of_isDirectory hdir, ite_self]
  rw [write, hmade, stored]
  simp only
  rw [Disk.write, h.sound, h.opened]
  cases r.data <;> exact ⟨rfl, rfl⟩

/-- A report is put out over whatever its file held. -/
theorem emit_of_takes {d : Disk} {path : Text} {place : Place} (r : Report)
    (h : d.Takes path place) :
    (r.emit d path).files = d.files.put place (.file r.stored) ∧
      (r.emit d path).shown = (r.settled path).1 ∧ (r.emit d path).outcome = (r.settled path).2 := by
  obtain ⟨hfiles, hwrite⟩ := r.write_of_takes h
  refine ⟨(r.files_emit d path).trans hfiles, ?_⟩
  rw [settled]
  cases hdata : r.data with
  | ok bytes =>
    rw [hdata] at hwrite
    exact emit_of_written hwrite
  | error e =>
    rw [hdata] at hwrite
    exact emit_of_write_error hwrite

end Report

end HiddenText
