/-!
# Texts and bytes

A text is a list of Unicode code points.  Surrogates are code points like any other: a byte that
belongs to no character is kept in a text as the surrogate `U+DC00 + byte`, so that file names which
are not UTF-8 can be read, compared, printed and opened again (`CodePoint.ofByte`).

* `lit`: the text of a string literal.
* `Text.split`: the pieces between separators.  A list may be split in two parts
  (`split_append_cons`).
* `Text.le`: the dictionary order by code points, in which listings are sorted.
* `sortBy`: sorting by insertion.  It keeps what is there (`sortBy_perm`) and puts it in order
  (`sortBy_pairwise`).
-/

namespace HiddenText

/-- A Unicode code point, surrogates included. -/
abbrev CodePoint := Fin 0x110000

abbrev Text := List CodePoint

abbrev Bytes := List UInt8

namespace CodePoint

def ofChar (c : Char) : CodePoint :=
  ⟨c.val.toNat, by
    rcases c.valid with h | h
    · exact Nat.lt_trans h (by decide)
    · exact h.2⟩

/-- The code point with a number. -/
def ofNat (n : Nat) : CodePoint := ⟨n % 0x110000, Nat.mod_lt n (by decide)⟩

def isSurrogate (c : CodePoint) : Bool :=
  0xD800 ≤ c.val && c.val ≤ 0xDFFF

/-- The surrogates that stand for the bytes 80 to FF. -/
def isEscapedByte (c : CodePoint) : Bool :=
  0xDC80 ≤ c.val && c.val ≤ 0xDCFF

/-- The code point that keeps an undecodable byte. -/
def ofByte (b : UInt8) : CodePoint :=
  ⟨0xDC00 + b.toNat, by have := b.toNat_lt; omega⟩

def newline : CodePoint := ofNat 0x0A

def space : CodePoint := ofNat 0x20

def slash : CodePoint := ofNat 0x2F

def hyphen : CodePoint := ofNat 0x2D

/-- Whether the code point lies in one of the closed ranges. -/
def within (c : CodePoint) (ranges : List (Nat × Nat)) : Bool :=
  ranges.any fun r => r.1 ≤ c.val && c.val ≤ r.2

end CodePoint

/-- The text of a string. -/
def lit (s : String) : Text := s.toList.map CodePoint.ofChar

/-- Whether a list comes before another one in the dictionary, or is the same, when its elements are
ordered by a number each. -/
def dictionaryLe {α : Type} (key : α → Nat) : List α → List α → Bool
  | [], _ => true
  | _ :: _, [] => false
  | a :: s, b :: t => key a < key b || (key a == key b && dictionaryLe key s t)

/-- Puts an element before the first that does not come before it. -/
def insertBy {α : Type} (le : α → α → Bool) (a : α) : List α → List α
  | [] => [a]
  | b :: rest => if le a b then a :: b :: rest else b :: insertBy le a rest

def sortBy {α : Type} (le : α → α → Bool) (l : List α) : List α := l.foldr (insertBy le) []

theorem insertBy_perm {α : Type} (le : α → α → Bool) (a : α) (l : List α) :
    (insertBy le a l).Perm (a :: l) := by
  induction l with
  | nil => exact .refl _
  | cons b rest ih =>
    rw [insertBy]
    split
    · exact .refl _
    · exact (ih.cons b).trans (.swap a b rest)

theorem sortBy_perm {α : Type} (le : α → α → Bool) (l : List α) : (sortBy le l).Perm l := by
  induction l with
  | nil => exact .refl _
  | cons a rest ih => exact (insertBy_perm le a _).trans (ih.cons a)

theorem insertBy_pairwise {α : Type} {le : α → α → Bool}
    (htrans : ∀ a b c, le a b → le b c → le a c) (htotal : ∀ a b, le a b || le b a) (a : α) {l : List α} (hl : l.Pairwise (le · ·)) :
    (insertBy le a l).Pairwise (le · ·) := by
  induction l with
  | nil => simp [insertBy]
  | cons b rest ih =>
    rw [List.pairwise_cons] at hl
    rw [insertBy]
    split
    · next hab =>
      refine List.pairwise_cons.mpr ⟨fun c hc => ?_, List.pairwise_cons.mpr hl⟩
      rcases List.mem_cons.mp hc with rfl | hc
      · exact hab
      · exact htrans _ _ _ hab (hl.1 c hc)
    · next hab =>
      refine List.pairwise_cons.mpr ⟨fun c hc => ?_, ih hl.2⟩
      rcases List.mem_cons.mp ((insertBy_perm le a rest).mem_iff.mp hc) with rfl | hc
      · simpa [hab] using htotal c b
      · exact hl.1 c hc

/-- A sorted list is in order, whatever it was before. -/
theorem sortBy_pairwise {α : Type} {le : α → α → Bool}
    (htrans : ∀ a b c, le a b → le b c → le a c) (htotal : ∀ a b, le a b || le b a) (l : List α) : (sortBy le l).Pairwise (le · ·) := by
  induction l with
  | nil => exact .nil
  | cons a rest ih => exact insertBy_pairwise htrans htotal a ih

namespace Text

/-- Dictionary order by code points. -/
def le (s t : Text) : Bool := dictionaryLe (·.val) s t

/-- The pieces of a list between the separators; a list without separators is one piece. -/
def split {α : Type} [BEq α] (separator : α) (l : List α) : List (List α) :=
  l.foldr (fun a pieces =>
    if a == separator then [] :: pieces
    else
      match pieces with
      | [] => [[a]]
      | p :: rest => (a :: p) :: rest) [[]]

/-- The texts one after the other, with a separator between any two. -/
def join (separator : Text) (texts : List Text) : Text := (texts.intersperse separator).flatten

theorem split_nil {α : Type} [BEq α] (separator : α) : split separator [] = [[]] := rfl

theorem split_cons {α : Type} [BEq α] (separator a : α) (l : List α) :
    split separator (a :: l) =
      if a == separator then [] :: split separator l
      else
        match split separator l with
        | [] => [[a]]
        | p :: rest => (a :: p) :: rest := rfl

theorem split_ne_nil {α : Type} [BEq α] (separator : α) (l : List α) : split separator l ≠ [] := by
  cases l with
  | nil => simp [split_nil]
  | cons a l =>
    rw [split_cons]
    split
    · simp
    · split <;> simp

/-- Splitting at a separator and then splitting both sides is splitting. -/
theorem split_append_cons {α : Type} [BEq α] [LawfulBEq α] (separator : α) (l rest : List α) :
    split separator (l ++ separator :: rest) = split separator l ++ split separator rest := by
  induction l with
  | nil => simp [split_cons, split_nil]
  | cons a l ih =>
    rw [List.cons_append, split_cons, split_cons, ih]
    by_cases h : a == separator
    · simp [h]
    · simp only [h, Bool.false_eq_true, if_false]
      cases hs : split separator l with
      | nil => exact absurd hs (split_ne_nil separator l)
      | cons p pieces => rfl

theorem split_of_not_mem {α : Type} [BEq α] [LawfulBEq α] {separator : α} {l : List α}
    (h : separator ∉ l) : split separator l = [l] := by
  induction l with
  | nil => rfl
  | cons a l ih =>
    rw [List.mem_cons, not_or] at h
    have ha : (a == separator) = false := beq_eq_false_iff_ne.mpr (Ne.symm h.1)
    rw [split_cons, ha, ih h.2]
    rfl

end Text

end HiddenText
