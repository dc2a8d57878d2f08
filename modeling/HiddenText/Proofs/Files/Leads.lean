import HiddenText.Files.Lookup

/-!
# Where paths lead

`Node.Leads` describes a lookup that succeeds step by step, with the links that it may still follow.
It is what `Node.followSteps` computes (`followSteps_eq_ok_iff`), and facts about lookups are proved
by induction on it.  `FileSystem.find` is such a lookup (`leads_of_find`, `find_of_leads`).
-/

namespace HiddenText

namespace Node

/-- Whether a name may stand before the rest of a path: no slash may end a path that is written. -/
def Admits (purpose : Purpose) (n : Name) (rest : List Path.Step) : Prop :=
  ¬(purpose = .create ∧ rest = [.slash]) ∧ n.length ≤ Path.nameLimit

inductive Leads (root : Node) (purpose : Purpose) :
    Nat → Place → List Path.Step → Target → Prop
  | found (links : Nat) (place : Place) : Leads root purpose links place [] (.found place)
  | here {links place es rest target} (hdir : root.get? place = some (.dir es))
      (hrest : Leads root purpose links place rest target) :
      Leads root purpose links place (.here :: rest) target
  | slash {links place es rest target} (hdir : root.get? place = some (.dir es))
      (hrest : Leads root purpose links place rest target) :
      Leads root purpose links place (.slash :: rest) target
  | up {links place es rest target} (hdir : root.get? place = some (.dir es))
      (hrest : Leads root purpose links place.dropLast rest target) :
      Leads root purpose links place (.up :: rest) target
  /-- The last name is free. -/
  | free {links place es n} (hdir : root.get? place = some (.dir es))
      (hn : Admits purpose n []) (hlookup : es.lookup n = none) :
      Leads root purpose links place [.name n] (.free place n)
  /-- The last name is a link that is not followed. -/
  | entry {links place es n dest} (hdir : root.get? place = some (.dir es))
      (hn : Admits purpose n []) (hlookup : es.lookup n = some (.link dest))
      (hentry : purpose = .entry) :
      Leads root purpose links place [.name n] (.found (place ++ [n]))
  | link {links place es n dest rest target} (hdir : root.get? place = some (.dir es))
      (hn : Admits purpose n rest) (hlookup : es.lookup n = some (.link dest))
      (hfollow : ¬(purpose = .entry ∧ rest = []))
      (hrest : Leads root purpose links (linkStart place dest) (Path.steps dest ++ rest) target) :
      Leads root purpose (links + 1) place (.name n :: rest) target
  | enter {links place es n node rest target} (hdir : root.get? place = some (.dir es))
      (hn : Admits purpose n rest) (hlookup : es.lookup n = some node)
      (hnode : ∀ dest, node ≠ .link dest)
      (hrest : Leads root purpose links (place ++ [n]) rest target) :
      Leads root purpose links place (.name n :: rest) target

/-- How a lookup goes on after a link. -/
def afterLink (root : Node) (purpose : Purpose) :
    Nat → Place → List Path.Step → Except Cause Target
  | 0 => fun _ _ => .error .tooManyLinks
  | links + 1 => followSteps root purpose links

theorem followSteps_eq (root : Node) (purpose : Purpose) (links : Nat) :
    followSteps root purpose links = walkSteps root purpose (afterLink root purpose links) := by
  cases links <;> rfl

section

variable {root : Node} {purpose : Purpose} {target : Target}

theorem leads_of_walkSteps {links : Nat}
    (hlinks : ∀ place steps, afterLink root purpose links place steps = .ok target →
      ∃ fewer, links = fewer + 1 ∧ Leads root purpose fewer place steps target)
    (steps : List Path.Step) : ∀ place,
      walkSteps root purpose (afterLink root purpose links) place steps = .ok target →
        Leads root purpose links place steps target := by
  induction steps with
  | nil =>
    intro place h
    obtain rfl := Except.ok.inj h
    exact .found links place
  | cons step rest ih =>
    intro place h
    rw [walkSteps] at h
    split at h
    · next es hdir =>
      split at h
      · exact .here hdir (ih _ h)
      · exact .slash hdir (ih _ h)
      · exact .up hdir (ih _ h)
      · next n =>
        split at h
        · cases h
        · next hslash =>
          split at h
          · cases h
          · next hlength =>
            have hn : Admits purpose n rest := ⟨hslash, Nat.le_of_not_lt hlength⟩
            split at h
            · next hlookup =>
              split at h
              · next hrest =>
                obtain rfl := List.isEmpty_iff.mp hrest
                obtain rfl := Except.ok.inj h
                exact .free hdir hn hlookup
              · cases h
            · next dest hlookup =>
              split at h
              · next hentry =>
                obtain ⟨hentry, rfl⟩ := hentry
                obtain rfl := Except.ok.inj h
                exact .entry hdir hn hlookup hentry
              · next hfollow =>
                obtain ⟨fewer, rfl, hleads⟩ := hlinks _ _ h
                exact .link hdir hn hlookup hfollow hleads
            · next node hnode hlookup =>
              refine .enter hdir hn hlookup ?_ (ih _ h)
              rintro dest rfl
              exact hnode dest rfl
    · cases h

theorem leads_of_followSteps (links : Nat) : ∀ place steps,
    followSteps root purpose links place steps = .ok target →
      Leads root purpose links place steps target := by
  induction links with
  | zero =>
    intro place steps h
    rw [followSteps_eq] at h
    refine leads_of_walkSteps ?_ steps place h
    intro p s hlink
    cases hlink
  | succ links ih =>
    intro place steps h
    rw [followSteps_eq] at h
    refine leads_of_walkSteps ?_ steps place h
    intro p s hlink
    exact ⟨links, rfl, ih p s hlink⟩

theorem walkSteps_name {follow : Place → List Path.Step → Except Cause Target} {place : Place}
    {es : List (Name × Node)} {n : Name} {rest : List Path.Step}
    (hdir : root.get? place = some (.dir es)) (hn : Admits purpose n rest) :
    walkSteps root purpose follow place (.name n :: rest) =
      match es.lookup n with
      | none => if rest.isEmpty then .ok (.free place n) else .error .noEntry
      | some (.link dest) =>
        if purpose = .entry ∧ rest = [] then .ok (.found (place ++ [n]))
        else follow (linkStart place dest) (Path.steps dest ++ rest)
      | some _ => walkSteps root purpose follow (place ++ [n]) rest := by
  rw [walkSteps, hdir]
  exact (if_neg hn.1).trans (if_neg (Nat.not_lt_of_le hn.2))

theorem followSteps_of_leads {links : Nat} {place : Place} {steps : List Path.Step}
    (h : Leads root purpose links place steps target) :
    followSteps root purpose links place steps = .ok target := by
  induction h with
  | found links place => rw [followSteps_eq, walkSteps]
  | here hdir _ ih =>
    rw [followSteps_eq] at ih ⊢
    rw [walkSteps, hdir]
    exact ih
  | slash hdir _ ih =>
    rw [followSteps_eq] at ih ⊢
    rw [walkSteps, hdir]
    exact ih
  | up hdir _ ih =>
    rw [followSteps_eq] at ih ⊢
    rw [walkSteps, hdir]
    exact ih
  | free hdir hn hlookup =>
    rw [followSteps_eq, walkSteps_name hdir hn, hlookup]
    rfl
  | entry hdir hn hlookup hentry =>
    rw [followSteps_eq, walkSteps_name hdir hn, hlookup]
    exact if_pos ⟨hentry, rfl⟩
  | link hdir hn hlookup hfollow _ ih =>
    rw [followSteps_eq, walkSteps_name hdir hn, hlookup]
    exact (if_neg hfollow).trans ih
  | @enter _ _ _ _ node _ _ hdir hn hlookup hnode _ ih =>
    rw [followSteps_eq] at ih ⊢
    rw [walkSteps_name hdir hn, hlookup]
    cases node with
    | link dest => exact absurd rfl (hnode dest)
    | file data => exact ih
    | dir es => exact ih

/-- The lookup computes where a path leads. -/
theorem followSteps_eq_ok_iff {links : Nat} {place : Place} {steps : List Path.Step} :
    followSteps root purpose links place steps = .ok target ↔
      Leads root purpose links place steps target :=
  ⟨leads_of_followSteps links place steps, followSteps_of_leads⟩

theorem Leads.unique {target' : Target} {links : Nat} {place : Place} {steps : List Path.Step}
    (h : Leads root purpose links place steps target)
    (h' : Leads root purpose links place steps target') : target = target' := by
  have hfollow := followSteps_of_leads h
  rw [followSteps_of_leads h'] at hfollow
  exact (Except.ok.inj hfollow).symm

end

end Node

namespace FileSystem

theorem leads_of_find {fs : FileSystem} {purpose : Purpose} {path : Bytes} {target : Target}
    (h : fs.find purpose path = .ok target) :
    path ≠ [] ∧ path.length ≤ Path.lengthLimit ∧
      Node.Leads fs.root purpose linkLimit (if Path.isAbsolute path then [] else fs.working)
        (Path.steps path) target := by
  rw [find] at h
  split at h
  · cases h
  · next hempty =>
    split at h
    · cases h
    · next hlength =>
      refine ⟨?_, Nat.le_of_not_lt hlength, Node.followSteps_eq_ok_iff.mp h⟩
      rintro rfl
      exact hempty rfl

theorem find_of_leads {fs : FileSystem} {purpose : Purpose} {path : Bytes} {target : Target}
    (hne : path ≠ []) (hlength : path.length ≤ Path.lengthLimit)
    (h : Node.Leads fs.root purpose linkLimit (if Path.isAbsolute path then [] else fs.working)
      (Path.steps path) target) : fs.find purpose path = .ok target := by
  rw [find, if_neg (by simpa using hne), if_neg (Nat.not_lt_of_le hlength)]
  exact Node.followSteps_eq_ok_iff.mpr h

end FileSystem

end HiddenText
