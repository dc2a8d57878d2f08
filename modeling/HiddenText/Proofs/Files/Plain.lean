import HiddenText.Proofs.Files.Opens
import HiddenText.Proofs.Files.WellFormed

/-!
# Plain trees

A plain tree is a well-formed one without links: it has directories and files only.  A lookup goes
down its names one by one, so the path of a place below a directory opens that place or nothing
(`FileSystem.Opens.eq_of_descend`).
-/

namespace HiddenText

namespace Node

/-- A tree of directories and files, in which no directory has a name twice. -/
inductive Plain : Node → Prop
  | file (data : Bytes) : Plain (.file data)
  | dir {es : List (Name × Node)} (hnodup : (es.map Prod.fst).Nodup)
      (hnames : ∀ e ∈ es, Path.IsName e.1) (hes : ∀ e ∈ es, Plain e.2) : Plain (.dir es)

namespace Plain

theorem wellFormed {node : Node} (h : Plain node) : WellFormed node := by
  induction h with
  | file data => exact .file data
  | dir hnodup hnames _ ih => exact .dir hnodup hnames ih

theorem ne_link {node : Node} (h : Plain node) (target : Bytes) : node ≠ .link target := by
  rintro rfl
  cases h

theorem lookup {es : List (Name × Node)} {n : Name} {node : Node} (h : Plain (.dir es))
    (hlookup : es.lookup n = some node) : Plain node := by
  cases h with
  | dir _ _ hes => exact hes _ (mem_of_lookup hlookup)

theorem get? {node a : Node} (h : Plain node) {place : Place} (ha : node.get? place = some a) :
    Plain a := by
  induction place generalizing node with
  | nil =>
    rw [get?_nil] at ha
    rwa [← Option.some.inj ha]
  | cons n place ih =>
    obtain ⟨es, below, rfl, hlookup, ha⟩ := get?_cons_eq_some ha
    exact ih (h.lookup hlookup) ha

end Plain

/-- In a plain tree names lead one down from the other. -/
theorem Leads.place_eq {root : Node} {links : Nat} {place q : Place} {names : List Name}
    (h : Leads root .use links place (names.map Path.Step.name) (.found q)) (hplain : root.Plain) :
    q = place ++ names := by
  induction names generalizing place with
  | nil =>
    cases h with
    | found _ _ => exact (List.append_nil _).symm
  | cons n names ih =>
    rw [List.map_cons] at h
    generalize hrest : names.map Path.Step.name = rest at h
    cases h with
    | entry _ _ _ hentry => cases hentry
    | link hdir _ hlookup _ _ =>
      rw [← get?_append_singleton hdir] at hlookup
      exact absurd rfl ((hplain.get? hlookup).ne_link _)
    | enter _ _ _ _ hleads =>
      rw [← hrest] at hleads
      rw [ih hleads, List.append_assoc]
      rfl

end Node

namespace FileSystem

variable {fs : FileSystem} {path : Text} {place : Place}

/-- In a plain tree, the path of a place below a directory opens that place if it opens any. -/
theorem Opens.eq_of_descend {q : Place} {names : Place} (hplain : fs.root.Plain)
    (h : fs.Opens path place) (hnames : ∀ n ∈ names, Path.IsName n)
    (h' : fs.Opens (Path.descend path names) q) : q = place ++ names := by
  cases names with
  | nil =>
    rw [List.append_nil]
    exact h'.unique h
  | cons n names =>
    obtain ⟨bytes, hbytes, hne, -, hleads⟩ := h.leads
    obtain ⟨bytes', hbytes', -, -, hleads'⟩ := h'.leads
    obtain ⟨below, hbelow, habsolute, hnamed⟩ := Path.toBytes_descend hnames hbytes hne
    rw [hbytes'] at hbelow
    obtain rfl := Except.ok.inj hbelow
    rw [habsolute] at hleads'
    obtain ⟨middle, fewer, hfirst, hlast⟩ := hleads'.split _ _ hnamed (List.cons_ne_nil _ _)
    obtain rfl := Target.found.inj (hfirst.unique hleads)
    exact hlast.place_eq hplain

end FileSystem

end HiddenText
