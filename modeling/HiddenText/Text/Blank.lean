import HiddenText.Text.Basic

/-!
# Blank characters

`isBlank` is the white space that is cut off the ends of a setting: the characters with the Unicode
property `White_Space` and the four separators `U+001C` to `U+001F`.  The invisible characters that
the scanner looks for are not among them.
-/

namespace HiddenText

def CodePoint.blankRanges : List (Nat × Nat) :=
  [(0x09, 0x0D), (0x1C, 0x20), (0x85, 0x85), (0xA0, 0xA0), (0x1680, 0x1680), (0x2000, 0x200A),
    (0x2028, 0x2029), (0x202F, 0x202F), (0x205F, 0x205F), (0x3000, 0x3000)]

def CodePoint.isBlank (c : CodePoint) : Bool := c.within blankRanges

namespace Text

/-- Cuts a class of characters off both ends. -/
def trim (p : CodePoint → Bool) (t : Text) : Text :=
  ((t.dropWhile p).reverse.dropWhile p).reverse

/-- The text without the blanks at its ends. -/
def strip (t : Text) : Text := t.trim CodePoint.isBlank

def isBlank (t : Text) : Bool := t.all CodePoint.isBlank

end Text

end HiddenText
