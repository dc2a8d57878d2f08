import HiddenText.Proofs.Files.Plain
import HiddenText.Proofs.Files.Written

/-!
# One file more

`Node.Grown` relates a tree to the one that a new file makes of it (`grown_set`): on the way to the
file the directories have one entry more or one that has grown, and every other node stays what it
was (`Grown.get?_eq_or`, `Grown.exists_get?`).  So a path that opened something opens it still, and
one that opens anything but the new file opened it before (`FileSystem.Opens.put`,
`FileSystem.opens_of_put`).
-/

namespace HiddenText

namespace Node

theorem bind_of_new {es : List (Name × Node)} {n : Name} (h : es.lookup n = none) (node : Node) :
    bind es n node = es ++ [(n, node)] := by
  rw [bind, if_neg]
  rw [List.lookup_eq_none_iff] at h
  simp only [List.any_eq_true, beq_iff_eq, not_exists, not_and]
  intro e he heq
  have hne := h e he
  simp [heq] at hne

theorem bind_of_old {es : List (Name × Node)} {n : Name} {old : Node} (h : es.lookup n = some old)
    (node : Node) : bind es n node = es.map fun e => if e.1 == n then (n, node) else e := by
  rw [bind, if_pos]
  exact List.any_eq_true.mpr ⟨_, mem_of_lookup h, beq_self_eq_true n⟩

/-! ## The new file -/

/-- The second tree has a file at a place where the first one has nothing, and is the same
otherwise. -/
inductive Grown (data : Bytes) : Place → Node → Node → Prop
  | new {es : List (Name × Node)} {n : Name} (hnew : es.lookup n = none) :
      Grown data [n] (.dir es) (.dir (bind es n (.file data)))
  | within {es : List (Name × Node)} {n : Name} {place : Place} {node node' : Node}
      (hlookup : es.lookup n = some node) (h : Grown data place node node') :
      Grown data (n :: place) (.dir es) (.dir (bind es n node'))

theorem grown_set (data : Bytes) (place : Place) : ∀ node : Node, node.IsOpen place →
    node.get? place = none → Grown data place node (node.set place (.file data)) := by
  induction place with
  | nil =>
    intro node _ hfree
    rw [get?_nil] at hfree
    cases hfree
  | cons m place ih =>
    intro node hopen hfree
    cases place with
    | nil =>
      obtain h | ⟨es, h⟩ := hopen
      · cases h
      · rw [List.dropLast_singleton, get?_nil] at h
        obtain rfl := Option.some.inj h
        have hnew : es.lookup m = none := by
          rw [← hfree, ← get?_append_singleton (get?_nil _) m]
          rfl
        rw [set, hnew]
        exact .new hnew
    | cons n place =>
      cases node with
      | dir es =>
        obtain ⟨below, hlookup, hbelow⟩ := hopen.of_cons_cons
        rw [get?_dir_cons, hlookup, Option.bind_some] at hfree
        rw [set, hlookup]
        exact .within hlookup (ih below hbelow hfree)
      | file old =>
        obtain h | ⟨es, h⟩ := hopen <;> cases h
      | link target =>
        obtain h | ⟨es, h⟩ := hopen <;> cases h

namespace Grown

variable {data : Bytes} {place q : Place} {node node' a b : Node}

theorem exists_dir (h : Grown data place node node') :
    (∃ es, node = .dir es) ∧ ∃ es', node' = .dir es' := by
  cases h with
  | new _ => exact ⟨⟨_, rfl⟩, ⟨_, rfl⟩⟩
  | within _ _ => exact ⟨⟨_, rfl⟩, ⟨_, rfl⟩⟩

theorem get?_place (h : Grown data place node node') :
    node'.get? place = some (.file data) := by
  induction h with
  | new _ => rw [get?_dir_cons, lookup_bind_self, Option.bind_some, get?_nil]
  | within _ _ ih => rw [get?_dir_cons, lookup_bind_self, Option.bind_some, ih]

/-- What was there has not changed, or it is on the way to the new file. -/
theorem get?_eq_or (h : Grown data place node node') (ha : node.get? q = some a) :
    node'.get? q = some a ∨
      ∃ rest a', place = q ++ rest ∧ node'.get? q = some a' ∧ Grown data rest a a' := by
  induction h generalizing q with
  | @new es n hnew =>
    cases q with
    | nil =>
      rw [get?_nil] at ha
      obtain rfl := Option.some.inj ha
      exact .inr ⟨[n], _, rfl, get?_nil _, .new hnew⟩
    | cons k q =>
      rw [get?_dir_cons] at ha ⊢
      by_cases hk : k = n
      · rw [hk, hnew] at ha
        cases ha
      · rw [lookup_bind_ne hk]
        exact .inl ha
  | @within es n place node node' hlookup hbelow ih =>
    cases q with
    | nil =>
      rw [get?_nil] at ha
      obtain rfl := Option.some.inj ha
      exact .inr ⟨n :: place, _, rfl, get?_nil _, .within hlookup hbelow⟩
    | cons k q =>
      rw [get?_dir_cons] at ha ⊢
      by_cases hk : k = n
      · rw [hk, hlookup, Option.bind_some] at ha
        rw [hk, lookup_bind_self, Option.bind_some]
        obtain hsame | ⟨rest, a', rfl, ha', hgrown⟩ := ih ha
        · exact .inl hsame
        · exact .inr ⟨rest, a', rfl, ha', hgrown⟩
      · rw [lookup_bind_ne hk]
        exact .inl ha

/-- Nothing else is new. -/
theorem exists_get? (h : Grown data place node node') (hb : node'.get? q = some b)
    (hq : q ≠ place) : ∃ a, node.get? q = some a := by
  induction h generalizing q with
  | @new es n hnew =>
    cases q with
    | nil => exact ⟨_, get?_nil _⟩
    | cons k q =>
      rw [get?_dir_cons] at hb ⊢
      by_cases hk : k = n
      · rw [hk, lookup_bind_self, Option.bind_some] at hb
        cases q with
        | nil => exact absurd (congrArg (fun name => [name]) hk) hq
        | cons k' q => cases hb
      · rw [lookup_bind_ne hk] at hb
        exact ⟨b, hb⟩
  | @within es n place node node' hlookup _ ih =>
    cases q with
    | nil => exact ⟨_, get?_nil _⟩
    | cons k q =>
      rw [get?_dir_cons] at hb ⊢
      by_cases hk : k = n
      · rw [hk, lookup_bind_self, Option.bind_some] at hb
        rw [hk, hlookup, Option.bind_some]
        refine ih hb ?_
        rintro rfl
        exact hq (congrArg (fun name => name :: q) hk)
      · rw [lookup_bind_ne hk] at hb
        exact ⟨b, hb⟩

theorem sameKind (h : Grown data place node node') (ha : node.get? q = some a) :
    ∃ b, node'.get? q = some b ∧ SameKind a b := by
  obtain hsame | ⟨rest, a', -, ha', hgrown⟩ := h.get?_eq_or ha
  · exact ⟨a, hsame, .refl a⟩
  · obtain ⟨⟨es, rfl⟩, ⟨es', rfl⟩⟩ := hgrown.exists_dir
    exact ⟨_, ha', .dir es es'⟩

theorem get?_dir (h : Grown data place node node') {es' : List (Name × Node)}
    (hb : node'.get? q = some (.dir es')) : ∃ es, node.get? q = some (.dir es) := by
  have hq : q ≠ place := by
    rintro rfl
    rw [h.get?_place] at hb
    cases hb
  obtain ⟨a, ha⟩ := h.exists_get? hb hq
  obtain ⟨b, hb', hkind⟩ := h.sameKind ha
  rw [hb] at hb'
  obtain rfl := Option.some.inj hb'
  cases hkind with
  | dir es _ => exact ⟨es, ha⟩

theorem plain (h : Grown data place node node') (hplain : node.Plain)
    (hnames : ∀ n ∈ place, Path.IsName n) : node'.Plain := by
  induction h with
  | @new es n hnew =>
    cases hplain with
    | dir hnodup hold hes =>
      have hname := hnames n (List.mem_singleton_self n)
      rw [bind_of_new hnew]
      refine .dir ?_ ?_ ?_
      · rw [List.map_append, List.map_singleton, List.nodup_append]
        refine ⟨hnodup, List.pairwise_singleton _ n, ?_⟩
        intro m hm k hk heq
        rw [List.lookup_eq_none_iff] at hnew
        obtain ⟨e, he, rfl⟩ := List.mem_map.mp hm
        have hne := hnew e he
        rw [heq, List.mem_singleton.mp hk] at hne
        simp at hne
      · rw [List.forall_mem_append]
        exact ⟨hold, List.forall_mem_singleton.mpr hname⟩
      · rw [List.forall_mem_append]
        exact ⟨hes, List.forall_mem_singleton.mpr (.file data)⟩
  | @within es n place below below' hlookup _ ih =>
    obtain ⟨-, hrest⟩ := List.forall_mem_cons.mp hnames
    have hbelow := ih (hplain.lookup hlookup) hrest
    cases hplain with
    | dir hnodup hold hes =>
      have hfst : ((bind es n below').map Prod.fst) = es.map Prod.fst := by
        rw [bind_of_old hlookup, List.map_map]
        apply List.map_congr_left
        intro e _
        by_cases he : e.1 = n <;> simp [he]
      refine .dir (hfst ▸ hnodup) ?_ ?_
      · intro e he
        have hmem : e.1 ∈ es.map Prod.fst := hfst ▸ List.mem_map_of_mem he
        obtain ⟨old, hold', heq⟩ := List.mem_map.mp hmem
        exact heq ▸ hold old hold'
      · intro e he
        rw [bind_of_old hlookup, List.mem_map] at he
        obtain ⟨old, hmem, rfl⟩ := he
        by_cases hn : old.1 = n
        · simpa [hn] using hbelow
        · simpa [hn] using hes old hmem

/-! ## Lookups -/

theorem keeps (h : Grown data place node node') : Keeps node node' := fun _ _ ha => h.sameKind ha

/-- What a name leads to was there before, unless it is the new file. -/
theorem exists_lookup {n : Name} {es es' : List (Name × Node)} (h : Grown data place node node')
    (hdir : node.get? q = some (.dir es)) (hdir' : node'.get? q = some (.dir es'))
    (hlookup : es'.lookup n = some b) (hne : q ++ [n] ≠ place) :
    ∃ a, es.lookup n = some a ∧ SameKind a b := by
  rw [← get?_append_singleton hdir'] at hlookup
  obtain ⟨a, ha⟩ := h.exists_get? hlookup hne
  obtain ⟨b', hb', hkind⟩ := h.sameKind ha
  rw [hlookup] at hb'
  obtain rfl := Option.some.inj hb'
  rw [get?_append_singleton hdir] at ha
  exact ⟨a, ha, hkind⟩

/-- A path that leads to anything but the new file leads there without it. -/
theorem leads_of_leads {new : Place} {links : Nat} {steps : List Path.Step} {target : Target}
    (h : Grown data new node node') (hleads : Leads node' .use links place steps target) :
    ∀ q, target = .found q → q ≠ new → Leads node .use links place steps target := by
  induction hleads with
  | found links place =>
    intro q _ _
    exact .found links place
  | here hdir _ ih =>
    intro q htarget hq
    obtain ⟨es, hdir⟩ := h.get?_dir hdir
    exact .here hdir (ih q htarget hq)
  | slash hdir _ ih =>
    intro q htarget hq
    obtain ⟨es, hdir⟩ := h.get?_dir hdir
    exact .slash hdir (ih q htarget hq)
  | up hdir _ ih =>
    intro q htarget hq
    obtain ⟨es, hdir⟩ := h.get?_dir hdir
    exact .up hdir (ih q htarget hq)
  | free _ _ _ =>
    intro q htarget
    cases htarget
  | entry _ _ _ hentry => cases hentry
  | @link links place es' n dest rest target hdir' hn hlookup' hfollow _ ih =>
    intro q htarget hq
    obtain ⟨es, hdir⟩ := h.get?_dir hdir'
    have hne : place ++ [n] ≠ new := by
      rintro rfl
      have hplace := h.get?_place
      rw [get?_append_singleton hdir', hlookup'] at hplace
      cases hplace
    obtain ⟨a, hlookup, hkind⟩ := h.exists_lookup hdir hdir' hlookup' hne
    cases hkind
    exact .link hdir hn hlookup hfollow (ih q htarget hq)
  | @enter links place es' n b rest target hdir' hn hlookup' hnode hrest ih =>
    intro q htarget hq
    obtain ⟨es, hdir⟩ := h.get?_dir hdir'
    have hne : place ++ [n] ≠ new := by
      rintro rfl
      cases rest with
      | nil =>
        cases hrest with
        | found _ _ => exact hq (Target.found.inj htarget).symm
      | cons step rest =>
        obtain ⟨es'', hfile⟩ := hrest.exists_dir
        rw [h.get?_place] at hfile
        cases hfile
    obtain ⟨a, hlookup, hkind⟩ := h.exists_lookup hdir hdir' hlookup' hne
    refine .enter hdir hn hlookup ?_ (ih q htarget hq)
    rintro dest rfl
    cases hkind
    exact hnode dest rfl

end Grown

end Node

namespace FileSystem

open Node

variable {fs : FileSystem} {path : Text} {new place : Place} {data : Bytes}

/-- A place that is free for a file. -/
structure IsFree (fs : FileSystem) (place : Place) : Prop where
  isOpen : fs.root.IsOpen place
  get?_eq : fs.root.get? place = none
  isName : ∀ n ∈ place, Path.IsName n

theorem IsFree.grown (h : fs.IsFree new) (data : Bytes) :
    Grown data new fs.root (fs.put new (.file data)).root :=
  grown_set data new fs.root h.isOpen h.get?_eq

theorem IsFree.plain_put (h : fs.IsFree new) (hplain : fs.root.Plain) (data : Bytes) :
    (fs.put new (.file data)).root.Plain :=
  (h.grown data).plain hplain h.isName

theorem Opens.put (h : fs.Opens path place) (hnew : fs.IsFree new) (data : Bytes) :
    (fs.put new (.file data)).Opens path place :=
  h.kept rfl (hnew.grown data).keeps

/-- A path that opens anything but the new file opened it before. -/
theorem opens_of_put (hnew : fs.IsFree new) (h : (fs.put new (.file data)).Opens path place)
    (hne : place ≠ new) : fs.Opens path place := by
  obtain ⟨bytes, hbytes, hfind⟩ := h
  obtain ⟨hbytesNe, hlength, hleads⟩ := leads_of_find hfind
  exact ⟨bytes, hbytes,
    find_of_leads hbytesNe hlength ((hnew.grown data).leads_of_leads hleads place rfl hne)⟩

theorem isDirectory_put (hnew : fs.IsFree new) :
    (fs.put new (.file data)).isDirectory path ↔ fs.isDirectory path := by
  have hgrown := hnew.grown data
  simp only [isDirectory_iff, statText_eq_ok_iff]
  constructor
  · rintro ⟨es', place, hopens, hdir'⟩
    obtain ⟨es, hdir⟩ := hgrown.get?_dir hdir'
    refine ⟨es, place, opens_of_put hnew hopens ?_, hdir⟩
    rintro rfl
    rw [hnew.get?_eq] at hdir
    cases hdir
  · rintro ⟨es, place, hopens, hdir⟩
    obtain ⟨es', hdir'⟩ := hgrown.keeps.dir hdir
    exact ⟨es', place, hopens.put hnew data, hdir'⟩

theorem openForWriting_put (hnew : fs.IsFree new) (h : fs.openForWriting path = .ok new)
    (data : Bytes) : (fs.put new (.file data)).openForWriting path = .ok new := by
  obtain ⟨bytes, target, hbytes, hfind, rfl, -, -⟩ := exists_target_of_openForWriting h data
  have hplace := (hnew.grown data).get?_place
  obtain ⟨hne, hlength, hleads⟩ := leads_of_find hfind
  have hfind' : (fs.put target.place (.file data)).find .create bytes =
      .ok (.found target.place) := by
    refine find_of_leads hne hlength ?_
    apply hleads.kept (hnew.grown data).keeps (by decide) (by decide) fun _ _ hn => hn
    rintro directory n rfl
    exact ⟨_, hplace, nofun⟩
  rw [openForWriting]
  simp only [hbytes, hfind', hplace]

end FileSystem

end HiddenText
