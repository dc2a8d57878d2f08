import HiddenText.Proofs.Text.Numerals

/-!
# Padded numerals

White space that may stand around a numeral is blank, but not every blank is such white space: four
separators are left out.  So a text that is read as a number still denotes it without the blanks at
its ends (`Numeral.denotes_strip_of_toInt?`), and the other way round unless one of the separators
stands in front or behind (`Numeral.exists_separator`).
-/

namespace HiddenText

/-- The four separators, which are blank but no white space around a numeral. -/
def CodePoint.isSeparator (c : CodePoint) : Bool := c.within [(0x1C, 0x1F)]

namespace Numeral

variable {c : CodePoint} {d : Nat} {ds : List Nat} {s t : Text} {n : Int}

theorem isBlank_of_isOuterSpace {c : CodePoint} (h : isOuterSpace c) : c.isBlank := by
  rw [isOuterSpace, Bool.and_eq_true] at h
  exact h.1

theorem isOuterSpace_eq (c : CodePoint) : isOuterSpace c = (c.isBlank && !c.isSeparator) := rfl

theorem not_isBlank_of_hasValue (h : c.HasValue d) : c.isBlank = false := by
  have hall : ∀ z ∈ CodePoint.decimalZeros, ∀ r ∈ CodePoint.blankRanges,
      r.2 < z ∨ z + 9 < r.1 := by decide
  obtain ⟨hd, z, hz, hval⟩ := h
  rw [CodePoint.isBlank, CodePoint.within, List.any_eq_false]
  intro r hr
  have hclear := hall z hz r hr
  rw [Bool.and_eq_true, decide_eq_true_eq, decide_eq_true_eq]
  omega

theorem Spells.not_isBlank (h : Spells t ds) : ∀ c ∈ t, c.isBlank = false := by
  induction h with
  | digit h =>
    intro c hc
    rw [List.mem_singleton.mp hc]
    exact not_isBlank_of_hasValue h
  | cons h ht ih => exact List.forall_mem_cons.mpr ⟨not_isBlank_of_hasValue h, ih⟩
  | underscore h ht ih =>
    exact List.forall_mem_cons.mpr ⟨not_isBlank_of_hasValue h,
      List.forall_mem_cons.mpr ⟨by decide, ih⟩⟩

theorem Denotes.not_isBlank (h : Denotes t n) : ∀ c ∈ t, c.isBlank = false := by
  cases h with
  | unsigned h _ => exact h.not_isBlank
  | plus h _ | minus h _ => exact List.forall_mem_cons.mpr ⟨by decide, h.not_isBlank⟩

theorem not_isOuterSpace_of_not_isBlank (h : c.isBlank = false) : isOuterSpace c = false := by
  rw [isOuterSpace_eq, h, Bool.false_and]

theorem Denotes.toInt? (h : Denotes t n) : toInt? t = some n := by
  have htrim := Text.trim_eq_self fun c hc => not_isOuterSpace_of_not_isBlank (h.not_isBlank c hc)
  rwa [toInt?_eq_some_iff, htrim]

/-- A text denotes one integer at most. -/
theorem Denotes.unique {m : Int} (hm : Denotes t m) (hn : Denotes t n) : m = n :=
  Option.some.inj (hm.toInt?.symm.trans hn.toInt?)

/-- A number with white space around it is a number with blanks around it. -/
theorem denotes_strip_of_toInt? (h : toInt? s = some n) : Denotes s.strip n := by
  rw [toInt?_eq_some_iff] at h
  obtain ⟨before, after, hparts, hbefore, hafter⟩ := (Text.isTrimmed_trim isOuterSpace s).parts
  have htrimmed : s.IsTrimmed CodePoint.isBlank (s.trim isOuterSpace) :=
    ⟨⟨before, after, hparts, fun c hc => isBlank_of_isOuterSpace (hbefore c hc),
        fun c hc => isBlank_of_isOuterSpace (hafter c hc)⟩,
      fun c hc => h.not_isBlank c (List.mem_of_mem_head? hc),
      fun c hc => h.not_isBlank c (List.mem_of_getLast? hc)⟩
  rwa [Text.strip, ← Text.isTrimmed_iff.mp htrimmed]

/-- A number between blanks that is none between white space has a separator in front or behind. -/
theorem exists_separator (hn : Denotes s.strip n) (h : toInt? s = none) :
    ∃ front back, s = front ++ s.strip ++ back ∧ ∃ c ∈ front ++ back, c.isSeparator := by
  obtain ⟨⟨front, back, hparts, hfront, hback⟩, hfirst, hlast⟩ :=
    Text.isTrimmed_trim CodePoint.isBlank s
  refine ⟨front, back, hparts, ?_⟩
  by_contra hnone
  have hspace : ∀ c ∈ front ++ back, isOuterSpace c := by
    intro c hc
    have hblank : c.isBlank := (List.mem_append.mp hc).elim (hfront c) (hback c)
    rw [isOuterSpace_eq, hblank, Bool.true_and, Bool.not_eq_true', Bool.eq_false_iff]
    exact fun hseparator => hnone ⟨c, hc, hseparator⟩
  have htrimmed : s.IsTrimmed isOuterSpace s.strip :=
    ⟨⟨front, back, hparts, fun c hc => hspace c (List.mem_append_left _ hc),
        fun c hc => hspace c (List.mem_append_right _ hc)⟩,
      fun c hc => not_isOuterSpace_of_not_isBlank (hfirst c hc),
      fun c hc => not_isOuterSpace_of_not_isBlank (hlast c hc)⟩
  rw [Text.isTrimmed_iff.mp htrimmed, ← toInt?_eq_some_iff, h] at hn
  cases hn

end Numeral

end HiddenText
