import HiddenText.Proofs.Text.Trimmed
import HiddenText.Text.Numeral
import Mathlib.Data.Nat.Digits.Defs

/-!
# What numerals denote

The texts that denote an integer, told by a grammar: digits of any script with single underscores
between some of them (`Numeral.Spells`), behind one sign or none, and no more of them than the limit
(`Numeral.Denotes`).  Reading accepts these texts, with white space around them, and no others, and
gives what they denote (`Numeral.toInt?_eq_some_iff`).  An integer is denoted by the numeral that is
written for it, unless that is too long (`Numeral.toInt?_ofInt`), and it is not too long below a
power of ten (`Numeral.isPrintable_iff`).
-/

namespace HiddenText

/-! ## Digits -/

namespace CodePoint

/-- The code point is a decimal digit of some script, of the given value. -/
def HasValue (c : CodePoint) (d : Nat) : Prop := d ≤ 9 ∧ ∃ z ∈ decimalZeros, c.val = z + d

theorem pairwise_decimalZeros : decimalZeros.Pairwise fun y z => y + 9 < z := by decide +kernel

theorem digit?_eq_some_iff {c : CodePoint} {d : Nat} : c.digit? = some d ↔ c.HasValue d := by
  rw [digit?, Option.map_eq_some_iff]
  constructor
  · rintro ⟨z, hfind, rfl⟩
    have hrange := List.find?_some hfind
    rw [Bool.and_eq_true, decide_eq_true_eq, decide_eq_true_eq] at hrange
    exact ⟨by omega, z, List.mem_of_find?_eq_some hfind, by omega⟩
  · rintro ⟨hd, z, hmem, hval⟩
    refine ⟨z, ?_, by omega⟩
    obtain ⟨before, after, hzeros⟩ := List.append_of_mem hmem
    have hpairwise := pairwise_decimalZeros
    rw [hzeros, List.pairwise_append] at hpairwise
    rw [List.find?_eq_some_iff_append]
    refine ⟨?_, before, after, hzeros, ?_⟩
    · rw [Bool.and_eq_true, decide_eq_true_eq, decide_eq_true_eq]
      omega
    · intro y hy
      have hlt := hpairwise.2.2 y hy z List.mem_cons_self
      rw [Bool.not_eq_true', Bool.and_eq_false_iff, decide_eq_false_iff_not,
        decide_eq_false_iff_not]
      omega

theorem HasValue.isDigit {c : CodePoint} {d : Nat} (h : c.HasValue d) : c.isDigit = true := by
  rw [CodePoint.isDigit, digit?_eq_some_iff.mpr h]
  rfl

theorem HasValue.ne_underscore {c : CodePoint} {d : Nat} (h : c.HasValue d) :
    c ≠ Numeral.underscore := by
  rintro rfl
  exact absurd h.isDigit (by decide)

end CodePoint

namespace Numeral

variable {c x : CodePoint} {d : Nat} {ds : List Nat} {t : Text} {n : Int}

/-- Digits with single underscores between some of them, and the values of the digits. -/
inductive Spells : Text → List Nat → Prop
  | digit {c : CodePoint} {d : Nat} (h : c.HasValue d) : Spells [c] [d]
  | cons {c : CodePoint} {d : Nat} {t : Text} {ds : List Nat} (h : c.HasValue d)
      (ht : Spells t ds) : Spells (c :: t) (d :: ds)
  | underscore {c : CodePoint} {d : Nat} {t : Text} {ds : List Nat} (h : c.HasValue d)
      (ht : Spells t ds) : Spells (c :: underscore :: t) (d :: ds)

/-- The number that has the digits in base ten, the highest first. -/
def number (ds : List Nat) : Nat := Nat.ofDigits 10 ds.reverse

/-- The text denotes the integer: digits, not too many, with a sign in front or none. -/
inductive Denotes : Text → Int → Prop
  | unsigned {t : Text} {ds : List Nat} (h : Spells t ds) (hlimit : ds.length ≤ digitLimit) :
      Denotes t (number ds)
  | plus {t : Text} {ds : List Nat} (h : Spells t ds) (hlimit : ds.length ≤ digitLimit) :
      Denotes (CodePoint.ofChar '+' :: t) (number ds)
  | minus {t : Text} {ds : List Nat} (h : Spells t ds) (hlimit : ds.length ≤ digitLimit) :
      Denotes (CodePoint.hyphen :: t) (-number ds)

/-! ## Digit by digit -/

/-- A group of digits between underscores. -/
def isGroup (g : Text) : Bool := !g.isEmpty && g.all CodePoint.isDigit

theorem digitValues?_eq (t : Text) :
    digitValues? t =
      if (Text.split underscore t).all isGroup then
        some ((Text.split underscore t).flatten.filterMap CodePoint.digit?)
      else none := rfl

theorem exists_split_cons (hx : x ≠ underscore) (t : Text) :
    ∃ g groups, Text.split underscore (x :: t) = (x :: g) :: groups := by
  rw [Text.split_cons, if_neg (by simpa using hx)]
  cases Text.split underscore t with
  | nil => exact ⟨[], [], rfl⟩
  | cons g groups => exact ⟨g, groups, rfl⟩

theorem digitValues?_cons_of_not_isDigit (h : c.isDigit = false) (t : Text) :
    digitValues? (c :: t) = none := by
  rw [digitValues?_eq, if_neg]
  by_cases hc : c = underscore
  · subst hc
    rw [Text.split_cons, if_pos (beq_self_eq_true _)]
    simp [isGroup]
  · obtain ⟨g, groups, hsplit⟩ := exists_split_cons hc t
    rw [hsplit]
    simp [isGroup, h]

theorem digitValues?_singleton (h : c.HasValue d) : digitValues? [c] = some [d] := by
  have hsplit : Text.split underscore [c] = [[c]] := by
    rw [Text.split_cons, if_neg (by simpa using h.ne_underscore)]
    rfl
  rw [digitValues?_eq, hsplit]
  simp [isGroup, h.isDigit, CodePoint.digit?_eq_some_iff.mpr h]

theorem digitValues?_cons_underscore (h : c.HasValue d) (t : Text) :
    digitValues? (c :: underscore :: t) = (digitValues? t).map (d :: ·) := by
  have hsplit : Text.split underscore (c :: underscore :: t) =
      [c] :: Text.split underscore t := by
    rw [Text.split_cons, if_neg (by simpa using h.ne_underscore), Text.split_cons,
      if_pos (beq_self_eq_true _)]
  have hgroup : isGroup [c] = true := by simp [isGroup, h.isDigit]
  rw [digitValues?_eq, digitValues?_eq, hsplit, List.all_cons, hgroup, Bool.true_and]
  split
  · simp [CodePoint.digit?_eq_some_iff.mpr h]
  · rfl

theorem digitValues?_cons_cons (h : c.HasValue d) (hx : x ≠ underscore) (t : Text) :
    digitValues? (c :: x :: t) = (digitValues? (x :: t)).map (d :: ·) := by
  obtain ⟨g, groups, hrest⟩ := exists_split_cons hx t
  have hsplit : Text.split underscore (c :: x :: t) = (c :: x :: g) :: groups := by
    rw [Text.split_cons, if_neg (by simpa using h.ne_underscore), hrest]
  have hgroup : isGroup (c :: x :: g) = isGroup (x :: g) := by simp [isGroup, h.isDigit]
  rw [digitValues?_eq, digitValues?_eq, hsplit, hrest, List.all_cons, List.all_cons, hgroup]
  split
  · simp [CodePoint.digit?_eq_some_iff.mpr h]
  · rfl

/-! ## The grammar -/

theorem Spells.exists_cons (h : Spells t ds) : ∃ c rest, t = c :: rest ∧ c.isDigit = true := by
  cases h with
  | digit h | cons h _ | underscore h _ => exact ⟨_, _, rfl, h.isDigit⟩

theorem spells_of_digitValues? :
    ∀ {t : Text} {ds : List Nat}, digitValues? t = some ds → Spells t ds
  | [], ds, h => by
    have hnil : digitValues? [] = none := rfl
    rw [hnil] at h
    cases h
  | c :: rest, ds, h => by
    cases hdigit : c.digit? with
    | none =>
      have hc : c.isDigit = false := by rw [CodePoint.isDigit, hdigit]; rfl
      rw [digitValues?_cons_of_not_isDigit hc] at h
      cases h
    | some d =>
      have hd := CodePoint.digit?_eq_some_iff.mp hdigit
      match rest with
      | [] =>
        rw [digitValues?_singleton hd] at h
        obtain rfl := Option.some.inj h
        exact .digit hd
      | x :: t =>
        by_cases hx : x = underscore
        · subst hx
          rw [digitValues?_cons_underscore hd, Option.map_eq_some_iff] at h
          obtain ⟨ds, ht, rfl⟩ := h
          exact .underscore hd (spells_of_digitValues? ht)
        · rw [digitValues?_cons_cons hd hx, Option.map_eq_some_iff] at h
          obtain ⟨ds, ht, rfl⟩ := h
          exact .cons hd (spells_of_digitValues? ht)

theorem Spells.digitValues?_eq_some (h : Spells t ds) : digitValues? t = some ds := by
  induction h with
  | digit h => exact digitValues?_singleton h
  | cons h ht ih =>
    obtain ⟨x, rest, rfl, hx⟩ := ht.exists_cons
    have hne : x ≠ Numeral.underscore := by
      rintro rfl
      exact absurd hx (by decide)
    rw [digitValues?_cons_cons h hne, ih]
    rfl
  | underscore h _ ih =>
    rw [digitValues?_cons_underscore h, ih]
    rfl

theorem digitValues?_eq_some_iff : digitValues? t = some ds ↔ Spells t ds :=
  ⟨spells_of_digitValues?, Spells.digitValues?_eq_some⟩

/-! ## Integers -/

theorem value_eq_number (ds : List Nat) : value ds = number ds := by
  rw [number, Nat.ofDigits_eq_foldr, List.foldr_reverse, value]
  congr 1
  funext n d
  exact Nat.add_comm _ _

/-- What is read is the digits behind the sign. -/
theorem toInt?_eq_some_iff_spells {u : Text} (hu : t.trim isOuterSpace = u) :
    toInt? t = some n ↔ ∃ ds, Spells (splitSign u).2 ds ∧ ds.length ≤ digitLimit ∧
      n = if (splitSign u).1 then -(number ds : Int) else number ds := by
  rw [toInt?, hu]
  rcases splitSign u with ⟨negative, body⟩
  simp only [← digitValues?_eq_some_iff]
  cases h : digitValues? body with
  | none => simp
  | some ds =>
    by_cases hlimit : ds.length ≤ digitLimit
    · simp [hlimit, value_eq_number, eq_comm]
    · simp [hlimit]

theorem splitSign_of_isDigit (h : c.isDigit = true) (rest : Text) :
    splitSign (c :: rest) = (false, c :: rest) := by
  have hminus : c ≠ CodePoint.hyphen := by
    rintro rfl
    exact absurd h (by decide)
  have hplus : c ≠ CodePoint.ofChar '+' := by
    rintro rfl
    exact absurd h (by decide)
  rw [splitSign, if_neg hminus, if_neg hplus]

/-- **A text is read as the integer that it denotes**, and not at all if it denotes none. -/
theorem toInt?_eq_some_iff : toInt? t = some n ↔ Denotes (t.trim isOuterSpace) n := by
  generalize hu : t.trim isOuterSpace = u
  rw [toInt?_eq_some_iff_spells hu]
  constructor
  · rintro ⟨ds, h, hlimit, rfl⟩
    cases u with
    | nil =>
      obtain ⟨c, rest, hnil, -⟩ := h.exists_cons
      cases hnil
    | cons c rest =>
      by_cases hminus : c = CodePoint.hyphen
      · subst hminus
        exact .minus h hlimit
      · by_cases hplus : c = CodePoint.ofChar '+'
        · subst hplus
          exact .plus h hlimit
        · rw [splitSign, if_neg hminus, if_neg hplus] at h ⊢
          exact .unsigned h hlimit
  · intro h
    cases h with
    | @unsigned _ ds h hlimit =>
      obtain ⟨c, rest, rfl, hc⟩ := h.exists_cons
      rw [splitSign_of_isDigit hc]
      exact ⟨ds, h, hlimit, rfl⟩
    | @plus rest ds h hlimit => exact ⟨ds, h, hlimit, rfl⟩
    | @minus rest ds h hlimit => exact ⟨ds, h, hlimit, rfl⟩

/-! ## Written integers -/

theorem length_digits_le_iff {n k : Nat} (hk : 0 < k) : (digits 10 n).length ≤ k ↔ n < 10 ^ k := by
  induction k generalizing n with
  | zero => exact absurd hk (Nat.lt_irrefl 0)
  | succ k ih =>
    rw [digits]
    split
    · next h =>
      rw [List.length_append, List.length_singleton, Nat.add_le_add_iff_right]
      by_cases hzero : k = 0
      · subst hzero
        have hpos := List.length_pos_iff.mpr (digits_ne_nil 10 (n / 10))
        omega
      · rw [ih (by omega), pow_succ, Nat.div_lt_iff_lt_mul (by decide)]
    · next h =>
      have hpow : 1 ≤ 10 ^ k := Nat.one_le_pow _ _ (by decide)
      simp only [List.length_singleton, pow_succ]
      omega

/-- The integers that can be written are those below a power of ten. -/
theorem isPrintable_iff : isPrintable n ↔ n.natAbs < 10 ^ digitLimit := by
  rw [isPrintable, decide_eq_true_iff]
  exact length_digits_le_iff (by decide)

theorem not_isPrintable_pow : ¬isPrintable (10 ^ digitLimit : Nat) := by
  rw [isPrintable_iff, Int.natAbs_natCast]
  exact Nat.lt_irrefl _

theorem hasValue_digitChar (hd : d < 10) : (digitChar d).HasValue d :=
  ⟨by omega, 0x30, by decide, digitChar_val hd⟩

theorem spells_map_digitChar (hne : ds ≠ []) (hlt : ∀ d ∈ ds, d < 10) :
    Spells (ds.map digitChar) ds := by
  induction ds with
  | nil => exact absurd rfl hne
  | cons d ds ih =>
    have hd := hasValue_digitChar (hlt d List.mem_cons_self)
    by_cases hds : ds = []
    · subst hds
      exact .digit hd
    · exact .cons hd (ih hds fun d' hd' => hlt d' (List.mem_cons_of_mem _ hd'))

theorem denotes_ofInt (hlimit : (digits 10 n.natAbs).length ≤ digitLimit) :
    Denotes (ofInt n) n := by
  have hspells := spells_map_digitChar (digits_ne_nil 10 _) (digits_lt (by decide) n.natAbs)
  have hvalue : number (digits 10 n.natAbs) = n.natAbs := by
    rw [← value_eq_number, value_digits]
  rw [ofInt]
  split
  · next hneg =>
    have h := Denotes.minus hspells hlimit
    rwa [hvalue, Int.ofNat_natAbs_of_nonpos (by omega), Int.neg_neg] at h
  · next hneg =>
    have h := Denotes.unsigned hspells hlimit
    rwa [hvalue, Int.natAbs_of_nonneg (by omega)] at h

theorem isOuterSpace_of_mem_ofInt : ∀ c ∈ ofInt n, isOuterSpace c = false := by
  have hdigits : ∀ c ∈ ofNat n.natAbs, isOuterSpace c = false := by
    have hall : ∀ d < 10, isOuterSpace (digitChar d) = false := by decide
    intro c hc
    obtain ⟨d, hd, rfl⟩ := List.mem_map.mp hc
    exact hall d (digits_lt (by decide) n.natAbs d hd)
  rw [ofInt]
  split
  · intro c hc
    rcases List.mem_cons.mp hc with rfl | hc
    · decide
    · exact hdigits c hc
  · exact hdigits

/-- What is written for an integer is read back. -/
theorem toInt?_ofInt (hlimit : (digits 10 n.natAbs).length ≤ digitLimit) :
    toInt? (ofInt n) = some n := by
  rw [toInt?_eq_some_iff, Text.trim_eq_self isOuterSpace_of_mem_ofInt]
  exact denotes_ofInt hlimit

end Numeral

end HiddenText
