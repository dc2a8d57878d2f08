import HiddenText.Text.Blank

/-!
# Numerals

Integers are written in decimal and read back.  Reading is wider than writing: digits may come from
any script that has decimal digits (category Nd of Unicode 14, where each script keeps its ten
digits together in order), single underscores may stand between digits, and one sign and outer white
space are allowed.  More than `digitLimit` digits are refused, leading zeros counted, and an integer
with more of them cannot be written either (`isPrintable`); only of counts it is taken for granted
that they have fewer.  The digits that are written denote the number (`value_digits`).
-/

namespace HiddenText

namespace CodePoint

/-- The digit zero of every script with decimal digits. -/
def decimalZeros : List Nat := [
  0x30, 0x660, 0x6F0, 0x7C0, 0x966, 0x9E6, 0xA66, 0xAE6, 0xB66, 0xBE6, 0xC66, 0xCE6, 0xD66,
  0xDE6, 0xE50, 0xED0, 0xF20, 0x1040, 0x1090, 0x17E0, 0x1810, 0x1946, 0x19D0, 0x1A80, 0x1A90,
  0x1B50, 0x1BB0, 0x1C40, 0x1C50, 0xA620, 0xA8D0, 0xA900, 0xA9D0, 0xA9F0, 0xAA50, 0xABF0, 0xFF10,
  0x104A0, 0x10D30, 0x11066, 0x110F0, 0x11136, 0x111D0, 0x112F0, 0x11450, 0x114D0, 0x11650,
  0x116C0, 0x11730, 0x118E0, 0x11950, 0x11C50, 0x11D50, 0x11DA0, 0x16A60, 0x16AC0, 0x16B50,
  0x1D7CE, 0x1D7D8, 0x1D7E2, 0x1D7EC, 0x1D7F6, 0x1E140, 0x1E2F0, 0x1E950, 0x1FBF0]

/-- The value of a decimal digit of any script. -/
def digit? (c : CodePoint) : Option Nat :=
  (decimalZeros.find? fun z => z ≤ c.val && c.val ≤ z + 9).map fun z => c.val - z

def isDigit (c : CodePoint) : Bool := c.digit?.isSome

end CodePoint

namespace Numeral

/-- The digits of a number, the highest first; a single 0 for zero. -/
def digits (base : Nat) (n : Nat) : List Nat :=
  if _ : 2 ≤ base ∧ base ≤ n then digits base (n / base) ++ [n % base] else [n]
termination_by n
decreasing_by exact Nat.div_lt_self (by omega) (by omega)

def digitChar (d : Nat) : CodePoint := .ofNat (0x30 + d)

/-- The sixteen digits, with letters from the given code point on. -/
def hexChar (letterA : Nat) (d : Nat) : CodePoint :=
  .ofNat (if d < 10 then 0x30 + d else letterA + (d - 10))

def ofNat (n : Nat) : Text := (digits 10 n).map digitChar

/-- The numeral of an integer.  That there is one is asked before (`isPrintable`). -/
def ofInt (i : Int) : Text :=
  if i < 0 then CodePoint.hyphen :: ofNat i.natAbs else ofNat i.natAbs

/-- Fills up with zeros on the left. -/
def pad (width : Nat) (t : Text) : Text := List.replicate (width - t.length) (digitChar 0) ++ t

/-- At least so many hexadecimal digits, in small letters. -/
def hex (width n : Nat) : Text := pad width ((digits 16 n).map (hexChar 0x61))

/-- At least so many hexadecimal digits, in capitals. -/
def hexCapital (width n : Nat) : Text := pad width ((digits 16 n).map (hexChar 0x41))

/-- The most digits that a numeral may have. -/
def digitLimit : Nat := 4300

/-- Whether an integer can be written in decimal. -/
def isPrintable (i : Int) : Bool := (digits 10 i.natAbs).length ≤ digitLimit

def underscore : CodePoint := .ofNat 0x5F

/-- White space that may stand around a numeral: the blanks except the four separators. -/
def isOuterSpace (c : CodePoint) : Bool := c.isBlank && !c.within [(0x1C, 0x1F)]

/-- The digit values of a numeral without sign: groups of digits, with single underscores between
them. -/
def digitValues? (t : Text) : Option (List Nat) :=
  let groups := Text.split underscore t
  if groups.all fun g => !g.isEmpty && g.all CodePoint.isDigit then
    some (groups.flatten.filterMap CodePoint.digit?)
  else none

def value (ds : List Nat) : Nat := ds.foldl (fun n d => 10 * n + d) 0

/-- The sign in front, `true` for minus, and the rest. -/
def splitSign : Text → Bool × Text
  | [] => (false, [])
  | c :: rest =>
    if c = CodePoint.hyphen then (true, rest)
    else if c = CodePoint.ofChar '+' then (false, rest)
    else (false, c :: rest)

/-- The integer that a text denotes. -/
def toInt? (t : Text) : Option Int :=
  let (negative, body) := splitSign (t.trim isOuterSpace)
  match digitValues? body with
  | some ds =>
    if ds.length ≤ digitLimit then
      some (if negative then -(value ds : Int) else (value ds : Int))
    else none
  | none => none

theorem value_append (ds : List Nat) (d : Nat) : value (ds ++ [d]) = 10 * value ds + d := by
  simp [value]

/-- The digits of a number denote it. -/
theorem value_digits (n : Nat) : value (digits 10 n) = n := by
  induction n using Nat.strongRecOn with
  | _ n ih =>
    rw [digits]
    split
    · next h =>
      rw [value_append, ih _ (by omega)]
      omega
    · simp [value]

theorem digits_ne_nil (base n : Nat) : digits base n ≠ [] := by
  rw [digits]
  split <;> simp

theorem digits_lt {base : Nat} (hb : 2 ≤ base) (n : Nat) : ∀ d ∈ digits base n, d < base := by
  induction n using Nat.strongRecOn with
  | _ n ih =>
    rw [digits]
    split
    · next h =>
      intro d hd
      rcases List.mem_append.mp hd with hd | hd
      · exact ih _ (Nat.div_lt_self (by omega) (by omega)) d hd
      · rw [List.mem_singleton.mp hd]; exact Nat.mod_lt _ (by omega)
    · intro d hd
      rw [List.mem_singleton.mp hd]; omega

theorem digitChar_val {d : Nat} (hd : d < 10) : (digitChar d).val = 0x30 + d := by
  rw [digitChar, CodePoint.ofNat]
  exact Nat.mod_eq_of_lt (by omega)

end Numeral

end HiddenText
