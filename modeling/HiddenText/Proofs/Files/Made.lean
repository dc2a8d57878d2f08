import HiddenText.Proofs.Files.Written

/-!
# Making directories

What `FileSystem.createDirectories` does to a tree, whether it succeeds or not: everything that was
there is there still, with what it holds, and what is new is a directory at a place that the path or
a leading part of it opens (`FileSystem.made_createDirectories`).  `FileSystem.Made` says so of two
file systems; it holds of one entry that is put at a free place, and from there of all that are made
one after the other (`Made.trans`).
-/

namespace HiddenText

/-! ## Leading parts of paths -/

namespace Path

/-- A leading part of a path, up to a slash or to the end. -/
def IsUpper (p path : Text) : Prop :=
  ∃ rest, path = p ++ rest ∧
    (rest = [] ∨ rest.head? = some CodePoint.slash ∨ p.getLast? = some CodePoint.slash)

theorem IsUpper.refl (path : Text) : IsUpper path path :=
  ⟨[], (List.append_nil path).symm, .inl rfl⟩

theorem IsUpper.trans {p q path : Text} (h : IsUpper p q) (h' : IsUpper q path) :
    IsUpper p path := by
  obtain ⟨rest, rfl, hrest⟩ := h
  obtain ⟨rest', rfl, hrest'⟩ := h'
  refine ⟨rest ++ rest', List.append_assoc _ _ _, ?_⟩
  rcases hrest with rfl | hhead | hlast
  · rwa [List.append_nil] at hrest'
  · right; left
    rw [List.head?_append, hhead]
    rfl
  · exact .inr (.inr hlast)

theorem isUpper_parent {path : Text} (h : parent path ≠ []) : IsUpper (parent path) path := by
  obtain ⟨slashes, hpath, hslashes, hparent⟩ := exists_parent_append_base path
  refine ⟨slashes ++ base path, ?_, ?_⟩
  · rw [← List.append_assoc]
    exact hpath
  · rcases hparent with ⟨hall, -⟩ | ⟨hne, -⟩
    · right; right
      rw [List.getLast?_eq_some_getLast h, hall _ (List.getLast_mem h)]
    · obtain ⟨c, rest, rfl⟩ := List.exists_cons_of_ne_nil hne
      right; left
      rw [hslashes c List.mem_cons_self]
      rfl

end Path

namespace FileSystem

theorem isUpper_parentAndBase {path parent base : Text}
    (h : parentAndBase path = (parent, base)) (hne : parent ≠ []) : Path.IsUpper parent path := by
  unfold parentAndBase at h
  split at h
  · obtain ⟨rfl, -⟩ := Prod.mk.inj h
    have hparent : Path.parent path ≠ [] := by
      intro hnil
      rw [hnil] at hne
      exact hne rfl
    exact (Path.isUpper_parent hne).trans (Path.isUpper_parent hparent)
  · obtain ⟨rfl, -⟩ := Prod.mk.inj h
    exact Path.isUpper_parent hne

end FileSystem

/-! ## Trees -/

namespace Node

/-- The same node, or another directory. -/
inductive Alike : Node → Node → Prop
  | refl (a : Node) : Alike a a
  | dir (es es' : List (Name × Node)) : Alike (.dir es) (.dir es')

theorem Alike.trans {a b c : Node} (h : Alike a b) (h' : Alike b c) : Alike a c := by
  cases h with
  | refl _ => exact h'
  | dir es es' =>
    cases h' with
    | refl _ => exact .dir es es'
    | dir _ es'' => exact .dir es es''

theorem Alike.sameKind {a b : Node} (h : Alike a b) : SameKind a b := by
  cases h with
  | refl a => exact .refl a
  | dir es es' => exact .dir es es'

theorem Alike.eq_of_file {data : Bytes} {b : Node} (h : Alike (.file data) b) :
    b = .file data := by
  cases h
  rfl

theorem rel_alike_refl (x : Option Node) : Option.Rel Alike x x := by
  cases x with
  | none => exact .none
  | some a => exact .some (.refl a)

/-- A node with nothing below it, put where there was nothing below, changes no other place. -/
theorem rel_get?_set {new : Node} (hnew : ∀ n rest, new.get? (n :: rest) = none) (place : Place) :
    ∀ {node : Node}, (∀ n rest, node.get? (place ++ n :: rest) = none) → ∀ {q : Place}, q ≠ place →
      Option.Rel Alike (node.get? q) ((node.set place new).get? q) := by
  induction place with
  | nil =>
    intro node hold q hq
    obtain ⟨n, rest, rfl⟩ := List.exists_cons_of_ne_nil hq
    have hnone := hold n rest
    rw [List.nil_append] at hnone
    rw [set_nil, hnew, hnone]
    exact .none
  | cons m place ih =>
    intro node hold q hq
    by_cases hdir : node.isDir = false
    · rw [set_of_not_dir hdir]
      exact rel_alike_refl _
    cases node with
    | file data => exact absurd rfl hdir
    | link target => exact absurd rfl hdir
    | dir es =>
      cases q with
      | nil =>
        rw [get?_nil, get?_nil, set]
        split
        · exact .some (.dir _ _)
        · split
          · exact .some (.dir _ _)
          · exact .some (.dir _ _)
      | cons k q =>
        rw [set]
        by_cases hk : k = m
        · subst hk
          have hq' : q ≠ place := fun h => hq (congrArg (k :: ·) h)
          cases hlookup : es.lookup k with
          | some below =>
            simp only [List.cons_append, get?_dir_cons, hlookup, Option.bind_some] at hold
            simp only [get?_dir_cons, lookup_bind_self, hlookup, Option.bind_some]
            exact ih hold hq'
          | none =>
            simp only
            split
            · next hempty =>
              rw [List.isEmpty_iff.mp hempty] at hq'
              obtain ⟨n, rest, rfl⟩ := List.exists_cons_of_ne_nil hq'
              rw [get?_dir_cons, get?_dir_cons, lookup_bind_self, hlookup, Option.bind_some, hnew]
              exact .none
            · exact rel_alike_refl _
        · have hother (below : Node) :
              (dir (bind es m below)).get? (k :: q) = (dir es).get? (k :: q) := by
            rw [get?_dir_cons, get?_dir_cons, lookup_bind_ne hk]
          split
          · rw [hother]
            exact rel_alike_refl _
          · split
            · rw [hother]
              exact rel_alike_refl _
            · exact rel_alike_refl _

/-- A path that leads to a directory may end in a slash. -/
theorem Leads.append_slash {root : Node} {links : Nat} {place : Place} {steps : List Path.Step}
    {target : Target} (h : Leads root .use links place steps target) :
    ∀ q es, target = .found q → root.get? q = some (.dir es) →
      Leads root .use links place (steps ++ [.slash]) target := by
  induction h with
  | found links place =>
    intro q es htarget hq
    obtain rfl := Target.found.inj htarget
    exact .slash hq (.found links place)
  | here hdir _ ih => exact fun q es htarget hq => .here hdir (ih q es htarget hq)
  | slash hdir _ ih => exact fun q es htarget hq => .slash hdir (ih q es htarget hq)
  | up hdir _ ih => exact fun q es htarget hq => .up hdir (ih q es htarget hq)
  | free _ _ _ =>
    intro q es htarget
    cases htarget
  | entry _ _ _ hentry => cases hentry
  | link hdir hn hlookup _ _ ih =>
    intro q es htarget hq
    have hrest := ih q es htarget hq
    rw [List.append_assoc] at hrest
    exact .link hdir ⟨nofun, hn.2⟩ hlookup nofun hrest
  | enter hdir hn hlookup hnode _ ih =>
    intro q es htarget hq
    exact .enter hdir ⟨nofun, hn.2⟩ hlookup hnode (ih q es htarget hq)

end Node

/-! ## File systems -/

namespace FileSystem

open Node

variable {fs fs' fs'' : FileSystem} {path p : Text} {place : Place}

/-- Everything is there still, with what it holds, and what is new is a directory that a leading
part of the path opens.  A place that has been written may be left out. -/
structure Made (fs fs' : FileSystem) (path : Text) (written : Option Place) : Prop where
  working : fs'.working = fs.working
  kept : ∀ q a, q ∉ written → fs.root.get? q = some a → ∃ b, fs'.root.get? q = some b ∧ Alike a b
  new : ∀ q b, q ∉ written → fs'.root.get? q = some b → fs.root.get? q = none →
    b.isDir ∧ ∃ p, Path.IsUpper p path ∧ fs'.Opens p q

namespace Made

theorem refl (fs : FileSystem) (path : Text) : Made fs fs path none where
  working := rfl
  kept := fun q a _ ha => ⟨a, ha, .refl a⟩
  new := fun q b _ hb hnone => by
    rw [hnone] at hb
    cases hb

/-- No node is lost or changes its kind, also when something has been written at a free place. -/
theorem keeps {written : Option Place} (h : Made fs fs' path written)
    (hfree : ∀ q ∈ written, fs.root.get? q = none) : Keeps fs.root fs'.root := by
  intro q a ha
  have hq : q ∉ written := by
    intro hq
    rw [hfree q hq] at ha
    cases ha
  obtain ⟨b, hb, halike⟩ := h.kept q a hq ha
  exact ⟨b, hb, halike.sameKind⟩

/-- More may be made on the way to a path that goes on. -/
theorem trans {written : Option Place} (h : Made fs fs' p none) (h' : Made fs' fs'' path written)
    (hkeeps : Keeps fs'.root fs''.root) (hp : Path.IsUpper p path) :
    Made fs fs'' path written where
  working := h'.working.trans h.working
  kept := by
    intro q a hq ha
    obtain ⟨b, hb, hab⟩ := h.kept q a nofun ha
    obtain ⟨c, hc, hbc⟩ := h'.kept q b hq hb
    exact ⟨c, hc, hab.trans hbc⟩
  new := by
    intro q c hq hc hnone
    cases hb : fs'.root.get? q with
    | none => exact h'.new q c hq hc hb
    | some b =>
      obtain ⟨hdir, p', hp', hopens⟩ := h.new q b nofun hb hnone
      obtain ⟨c', hc', halike⟩ := h'.kept q b hq hb
      rw [hc] at hc'
      obtain rfl := Option.some.inj hc'
      refine ⟨?_, p', hp'.trans hp, hopens.kept h'.working hkeeps⟩
      cases halike with
      | refl _ => exact hdir
      | dir _ _ => rfl

/-- What was written is a directory that the path opens. -/
theorem of_opens {es : List (Name × Node)} (h : Made fs fs' path (some place))
    (hfree : fs.root.get? place = none) (hdir : fs'.root.get? place = some (.dir es))
    (hopens : fs'.Opens path place) : Made fs fs' path none where
  working := h.working
  kept := by
    intro q a _ ha
    apply h.kept q a _ ha
    intro hq
    rw [← Option.some.inj hq, hfree] at ha
    cases ha
  new := by
    intro q b _ hb hnone
    by_cases hq : place = q
    · subst hq
      rw [hdir] at hb
      obtain rfl := Option.some.inj hb
      exact ⟨rfl, path, .refl path, hopens⟩
    · exact h.new q b (fun hmem => hq (Option.some.inj hmem)) hb hnone

end Made

/-- A node with nothing below it changes no place but its own. -/
theorem made_put {new : Node} (hnew : ∀ n rest, new.get? (n :: rest) = none)
    (hold : ∀ n rest, fs.root.get? (place ++ n :: rest) = none) (path : Text) :
    Made fs (fs.put place new) path (some place) := by
  have hrel (q : Place) (hq : q ∉ some place) :
      Option.Rel Alike (fs.root.get? q) ((fs.put place new).root.get? q) :=
    rel_get?_set hnew place hold fun heq => hq (congrArg some heq.symm)
  refine ⟨rfl, fun q a hq ha => ?_, fun q b hq hb hnone => ?_⟩
  · obtain ⟨hnone, -⟩ | ⟨a', b, ha', hb, halike⟩ := rel_cases (hrel q hq)
    · rw [ha] at hnone
      cases hnone
    · rw [ha] at ha'
      obtain rfl := Option.some.inj ha'
      exact ⟨b, hb, halike⟩
  · obtain ⟨-, hnone'⟩ | ⟨a, b', ha, -⟩ := rel_cases (hrel q hq)
    · rw [hb] at hnone'
      cases hnone'
    · rw [hnone] at ha
      cases ha

theorem made_put_file (h : fs.openForWriting path = .ok place) (data : Bytes) (directory : Text) :
    Made fs (fs.put place (.file data)) directory (some place) ∧
      Keeps fs.root (fs.put place (.file data)).root := by
  obtain ⟨bytes, target, -, -, rfl, -, hkind⟩ := exists_target_of_openForWriting h data
  refine ⟨made_put (fun _ _ => rfl) ?_ directory, get?_set_file data target.place fs.root hkind⟩
  intro n rest
  rw [get?_append]
  cases hget : fs.root.get? target.place with
  | none => rfl
  | some a =>
    have ha := hkind a hget
    cases ha
    rfl

/-- The path for which a free name was found opens the directory that is made there. -/
theorem opens_put_emptyDir {bytes : Bytes} {directory : Place} {n : Name}
    (hbytes : Path.toBytes path = .ok bytes) (hlength : bytes.length ≤ Path.lengthLimit)
    (hfind : fs.find .entry (trimmed bytes) = .ok (.free directory n))
    (hkeeps : Keeps fs.root (fs.put (directory ++ [n]) emptyDir).root)
    (hself : (fs.put (directory ++ [n]) emptyDir).root.get? (directory ++ [n]) = some emptyDir) :
    (fs.put (directory ++ [n]) emptyDir).Opens path (directory ++ [n]) := by
  obtain ⟨habsolute, hsteps⟩ := steps_trimmed bytes
  obtain ⟨htrimmed, -, hfound⟩ := leads_of_find hfind
  have hnamed := hfound.use_of_free directory n rfl
  rw [habsolute, hsteps] at hnamed
  have hmade := hnamed.kept hkeeps (by decide) (by decide) (fun _ _ hn => hn) (by
    intro directory' n' htarget
    obtain ⟨rfl, rfl⟩ := Target.free.inj htarget
    exact ⟨emptyDir, hself, nofun⟩)
  have hne : bytes ≠ [] := by
    rintro rfl
    exact htrimmed rfl
  refine ⟨bytes, hbytes, find_of_leads hne hlength ?_⟩
  -- a slash at the end of the path was left out when the name was looked up
  rcases Path.steps_eq bytes with heq | ⟨heq, -⟩
  · rw [heq]
    exact hmade
  · rw [heq]
    exact hmade.append_slash _ _ rfl hself

theorem made_createDirectory (fs : FileSystem) (path : Text) :
    Made fs (fs.createDirectory path).files path none := by
  rw [createDirectory, createEntry]
  cases hbytes : Path.toBytes path with
  | error b => exact .refl fs path
  | ok bytes =>
    simp only
    split
    · exact .refl fs path
    · next hlength =>
      rw [← trimmed]
      cases hfind : fs.find .entry (trimmed bytes) with
      | error c => exact .refl fs path
      | ok target =>
        cases target with
        | found place => exact .refl fs path
        | free directory n =>
          obtain ⟨es, hdir, hlookup⟩ := (leads_of_find hfind).2.2.lookup_free directory n rfl
          have hfree : fs.root.get? (directory ++ [n]) = none := by
            rw [get?_append_singleton hdir, hlookup]
          have hself : (fs.put (directory ++ [n]) emptyDir).root.get? (directory ++ [n]) =
              some emptyDir := by
            apply get?_set_self
            right
            rw [List.dropLast_concat]
            exact ⟨es, hdir⟩
          have hmade : Made fs (fs.put (directory ++ [n]) emptyDir) path
              (some (directory ++ [n])) := by
            apply made_put (fun _ _ => rfl)
            intro m rest
            rw [get?_append, hfree, Option.bind_none]
          have hkeeps := hmade.keeps (by simp [hfree])
          exact hmade.of_opens hfree hself
            (opens_put_emptyDir hbytes (Nat.le_of_not_lt hlength) hfind hkeeps hself)

theorem files_ensureDirectory (fs : FileSystem) (path : Text) :
    (fs.ensureDirectory path).files = (fs.createDirectory path).files := by
  rw [ensureDirectory]
  split
  · next fs' e hcreate =>
    rw [hcreate]
    split <;> rfl
  · rfl

theorem made_ensureDirectory (fs : FileSystem) (path : Text) :
    Made fs (fs.ensureDirectory path).files path none := by
  rw [files_ensureDirectory]
  exact made_createDirectory fs path

/-- **Only directories on the way to a path are made for it**, also when making them fails. -/
theorem made_createDirectories (fs : FileSystem) (calls : Nat) (path : Text) :
    Made fs (fs.createDirectories calls path).files path none := by
  have hmore {p path : Text} {fs' fs'' : FileSystem} (hp : Path.IsUpper p path)
      (h : Made fs fs' p none) (h' : Made fs' fs'' path none) : Made fs fs'' path none :=
    h.trans h' (h'.keeps nofun) hp
  have hne {parent base : Text} {b : Bool} (h : ¬(parent.isEmpty || base.isEmpty || b) = true) :
      parent ≠ [] := by
    rintro rfl
    exact h rfl
  fun_induction createDirectories fs calls path with
  | case1 calls path => exact made_ensureDirectory fs path
  | case2 path => exact .refl fs path
  | case3 path parent calls fs' above hmade hparts hgoes ih
  | case5 path parent calls fs' hmade hparts hgoes ih =>
    rw [hmade] at ih
    exact hmore (isUpper_parentAndBase hparts (hne hgoes)) ih (.refl fs' path)
  | case4 path parent base hparts hgoes calls fs' above hmade hdot ih
  | case6 path parent base hparts hgoes calls fs' hmade hdot ih =>
    rw [hmade] at ih
    exact hmore (isUpper_parentAndBase hparts (hne hgoes)) ih (made_ensureDirectory fs' path)
  | case7 path parent base hparts hgoes calls _ _ ih =>
    exact hmore (isUpper_parentAndBase hparts (hne hgoes)) ih (.refl _ path)

end FileSystem

end HiddenText
