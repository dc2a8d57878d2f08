import HiddenText.Text.Blank
import Mathlib.Data.List.TakeWhile

/-!
# Trimmed texts

`Text.IsTrimmed` says what is left of a text when a class of characters is cut off both ends, without
saying how it is cut: characters of the class stand on both sides of it, and none at its own ends.
There is exactly one such part (`isTrimmed_iff`).
-/

namespace HiddenText.Text

variable {p q : CodePoint → Bool} {t body before after : Text}

/-- The part of a text between the characters of a class at its ends. -/
structure IsTrimmed (p : CodePoint → Bool) (t body : Text) : Prop where
  parts : ∃ before after, t = before ++ body ++ after ∧ (∀ c ∈ before, p c) ∧ ∀ c ∈ after, p c
  first : ∀ c ∈ body.head?, p c = false
  last : ∀ c ∈ body.getLast?, p c = false

theorem head?_dropWhile (p : CodePoint → Bool) (t : Text) :
    ∀ c ∈ (t.dropWhile p).head?, p c = false := by
  intro c hc
  have h := List.head?_dropWhile_not p t
  rw [Option.mem_def] at hc
  rw [hc] at h
  exact h

theorem dropWhile_of_first (h : ∀ c ∈ t.head?, p c = false) : t.dropWhile p = t := by
  cases t with
  | nil => rfl
  | cons c t => rw [List.dropWhile_cons, h c rfl, if_neg Bool.false_ne_true]

theorem isTrimmed_trim (p : CodePoint → Bool) (t : Text) : t.IsTrimmed p (t.trim p) where
  parts := by
    refine ⟨t.takeWhile p, ((t.dropWhile p).reverse.takeWhile p).reverse, ?_, ?_, ?_⟩
    · rw [trim, List.append_assoc, ← List.reverse_append, List.takeWhile_append_dropWhile,
        List.reverse_reverse, List.takeWhile_append_dropWhile]
    · exact fun c hc => List.mem_takeWhile_imp hc
    · exact fun c hc => List.mem_takeWhile_imp (List.mem_reverse.mp hc)
  first := by
    intro c hc
    have hprefix : t.trim p <+: t.dropWhile p := by
      rw [trim, ← List.reverse_suffix, List.reverse_reverse]
      exact List.dropWhile_suffix p
    refine head?_dropWhile p t c ?_
    obtain ⟨rest, hrest⟩ := hprefix
    rw [← hrest, List.head?_append, hc]
    rfl
  last := by
    rw [trim, List.getLast?_reverse]
    exact head?_dropWhile p _

theorem trim_append (hbefore : ∀ c ∈ before, p c) (hafter : ∀ c ∈ after, p c)
    (hfirst : ∀ c ∈ body.head?, p c = false) (hlast : ∀ c ∈ body.getLast?, p c = false) :
    (before ++ body ++ after).trim p = body := by
  have hstart : (before ++ body ++ after).dropWhile p = (body ++ after).dropWhile p := by
    rw [List.append_assoc, List.dropWhile_append_of_pos hbefore]
  have hend : ∀ c ∈ after.reverse, p c := fun c hc => hafter c (List.mem_reverse.mp hc)
  rw [trim, hstart]
  cases body with
  | nil =>
    rw [List.nil_append, List.dropWhile_eq_nil_iff.mpr hafter]
    rfl
  | cons c body =>
    have hcut : (c :: body ++ after).dropWhile p = c :: body ++ after := dropWhile_of_first hfirst
    have hrest : (c :: body).reverse.dropWhile p = (c :: body).reverse := by
      apply dropWhile_of_first
      rwa [List.head?_reverse]
    rw [hcut, List.reverse_append, List.dropWhile_append_of_pos hend, hrest, List.reverse_reverse]

theorem isTrimmed_iff : t.IsTrimmed p body ↔ body = t.trim p := by
  constructor
  · rintro ⟨⟨before, after, rfl, hbefore, hafter⟩, hfirst, hlast⟩
    exact (trim_append hbefore hafter hfirst hlast).symm
  · rintro rfl
    exact isTrimmed_trim p t

/-- Nothing more is cut off by a smaller class. -/
theorem trim_trim_of_imp (h : ∀ c, q c → p c) (t : Text) : (t.trim p).trim q = t.trim p := by
  have hq : ∀ c, p c = false → q c = false := by
    intro c hp
    rw [Bool.eq_false_iff] at hp ⊢
    exact fun hc => hp (h c hc)
  have ht := isTrimmed_trim p t
  exact (isTrimmed_iff.mp
    ⟨⟨[], [], by simp, by simp, by simp⟩, fun c hc => hq c (ht.first c hc),
      fun c hc => hq c (ht.last c hc)⟩).symm

theorem trim_eq_nil_iff : t.trim p = [] ↔ ∀ c ∈ t, p c := by
  constructor
  · intro h
    obtain ⟨before, after, ht, hbefore, hafter⟩ := (isTrimmed_trim p t).parts
    rw [h, List.append_nil] at ht
    rw [ht]
    exact fun c hc => (List.mem_append.mp hc).elim (hbefore c) (hafter c)
  · intro h
    have hnil : t.IsTrimmed p [] :=
      ⟨⟨t, [], by simp, h, by simp⟩, by simp, by simp⟩
    exact (isTrimmed_iff.mp hnil).symm

theorem trim_eq_self (h : ∀ c ∈ t, p c = false) : t.trim p = t := by
  have hself : t.IsTrimmed p t :=
    ⟨⟨[], [], by simp, by simp, by simp⟩, fun c hc => h c (List.mem_of_mem_head? hc),
      fun c hc => h c (List.mem_of_getLast? hc)⟩
  exact (isTrimmed_iff.mp hself).symm

end HiddenText.Text
