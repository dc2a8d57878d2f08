import HiddenText.Finding

/-!
# The findings of a text, character by character

`Finding.collect` carries its findings along.  `collect_cons` says what it does without them: the
first character contributes `here`, and the rest is collected from the next offset, and from the
next line if the character is a line feed.
-/

namespace HiddenText

theorem mem_catalogue_of_name? {c : CodePoint} {name : Text} (h : c.name? = some name) :
    (c, name) ∈ catalogue := by
  obtain ⟨before, after, he, -⟩ := List.lookup_eq_some_iff.mp h
  rw [he]
  exact List.mem_append_right before List.mem_cons_self

theorem nodup_catalogue : (catalogue.map Prod.fst).Nodup := by decide

theorem name?_of_mem_catalogue {c : CodePoint} {name : Text} (h : (c, name) ∈ catalogue) :
    c.name? = some name := by
  obtain ⟨before, after, he⟩ := List.append_of_mem h
  refine List.lookup_eq_some_iff.mpr ⟨before, after, he, ?_⟩
  intro e hmem
  have hnodup := nodup_catalogue
  rw [he, List.map_append, List.map_cons, List.nodup_append] at hnodup
  have hne := hnodup.2.2 e.1 (List.mem_map_of_mem hmem) c List.mem_cons_self
  simpa using Ne.symm hne

theorem name?_newline : CodePoint.newline.name? = none := by decide

namespace Finding

/-- What a character at some offset and line contributes. -/
def here (c : CodePoint) (position line : Nat) : List Finding :=
  match c.name? with
  | some name => [ofChar c name position line]
  | none => []

/-- The line after a character. -/
def lineAfter (c : CodePoint) (line : Nat) : Nat :=
  if c = CodePoint.newline then line + 1 else line

theorem collect_eq_append (t : Text) : ∀ (found : List Finding) (position line : Nat),
    collect found position line t = found.reverse ++ collect [] position line t := by
  induction t with
  | nil => intro found position line; simp [collect]
  | cons c t ih =>
    intro found position line
    rw [collect, collect]
    split
    · exact ih _ _ _
    · split
      · rw [ih, ih [_]]
        simp
      · exact ih _ _ _

theorem collect_cons (position line : Nat) (c : CodePoint) (t : Text) :
    collect [] position line (c :: t)
      = here c position line ++ collect [] (position + 1) (lineAfter c line) t := by
  rw [collect, here, lineAfter]
  by_cases hc : c = CodePoint.newline
  · rw [if_pos hc, if_pos hc, hc, name?_newline]
    rfl
  · rw [if_neg hc, if_neg hc]
    cases c.name? with
    | some name => exact collect_eq_append t _ _ _
    | none => rfl

theorem lineAfter_eq_add (c : CodePoint) (line : Nat) :
    lineAfter c line = line + [c].count CodePoint.newline := by
  rw [lineAfter, List.count_singleton]
  by_cases h : c = CodePoint.newline
  · rw [if_pos h, if_pos (beq_iff_eq.mpr h)]
  · rw [if_neg h, if_neg (by simpa using h), Nat.add_zero]

theorem collect_append (s t : Text) : ∀ position line : Nat,
    collect [] position line (s ++ t) = collect [] position line s ++
      collect [] (position + s.length) (line + s.count CodePoint.newline) t := by
  induction s with
  | nil => intro position line; simp [collect]
  | cons c s ih =>
    intro position line
    have hposition : position + 1 + s.length = position + (c :: s).length := by
      rw [List.length_cons]
      omega
    have hline : lineAfter c line + s.count CodePoint.newline =
        line + (c :: s).count CodePoint.newline := by
      rw [lineAfter_eq_add, Nat.add_assoc, ← List.count_append, List.singleton_append]
    rw [List.cons_append, collect_cons, collect_cons, ih, hposition, hline, List.append_assoc]

/-- Wherever a catalogued character stands there is a finding for it. -/
theorem ofChar_mem_all {c : CodePoint} {name : Text} (h : c.name? = some name)
    (before after : Text) :
    ofChar c name before.length (1 + before.count CodePoint.newline) ∈
      all (before ++ c :: after) := by
  rw [all, collect_append, collect_cons, here, h, Nat.zero_add]
  simp

theorem collect_eq_nil_iff (t : Text) : ∀ position line : Nat,
    collect [] position line t = [] ↔ ∀ c ∈ t, c.name? = none := by
  induction t with
  | nil => intro position line; simp [collect]
  | cons c t ih =>
    intro position line
    rw [collect_cons, List.append_eq_nil_iff, ih, List.forall_mem_cons, here]
    cases c.name? <;> simp

theorem all_eq_nil_iff (t : Text) : all t = [] ↔ ∀ c ∈ t, c.name? = none :=
  collect_eq_nil_iff t 0 1

/-- A finding of a catalogued character, under its name. -/
def IsCatalogued (f : Finding) : Prop :=
  ∃ c name position line, (c, name) ∈ catalogue ∧ f = ofChar c name position line

theorem isCatalogued_of_mem_collect {t : Text} {position line : Nat} {f : Finding}
    (h : f ∈ collect [] position line t) : f.IsCatalogued := by
  induction t generalizing position line with
  | nil => cases h
  | cons c t ih =>
    rw [collect_cons, List.mem_append] at h
    rcases h with h | h
    · rw [here] at h
      cases hname : c.name? with
      | none =>
        rw [hname] at h
        cases h
      | some name =>
        rw [hname] at h
        exact ⟨c, name, position, line, mem_catalogue_of_name? hname, List.mem_singleton.mp h⟩
    · exact ih h

end Finding

end HiddenText
