import HiddenText.Text.Numeral

/-!
# The catalogue

The fifteen characters that are reported: the bidirectional controls, which can show a line in
another order than it is read by a compiler, and the invisible format characters, which can make two
different names look alike.  The order is the one in which they are listed.
-/

namespace HiddenText

/-- A character by its number, with its name. -/
def Catalogue.entry (n : Nat) (name : String) : CodePoint × Text := (.ofNat n, lit name)

open Catalogue in
def catalogue : List (CodePoint × Text) := [
  entry 0x202A "LRE (Left-to-Right Embedding)",
  entry 0x202B "RLE (Right-to-Left Embedding)",
  entry 0x202C "PDF (Pop Directional Formatting)",
  entry 0x202D "LRO (Left-to-Right Override)",
  entry 0x202E "RLO (Right-to-Left Override)",
  entry 0x2066 "LRI (Left-to-Right Isolate)",
  entry 0x2067 "RLI (Right-to-Left Isolate)",
  entry 0x2068 "FSI (First Strong Isolate)",
  entry 0x2069 "PDI (Pop Directional Isolate)",
  entry 0x200B "ZWSP (Zero Width Space)",
  entry 0x200C "ZWNJ (Zero Width Non-Joiner)",
  entry 0x200D "ZWJ (Zero Width Joiner)",
  entry 0x200E "LRM (Left-to-Right Mark)",
  entry 0x200F "RLM (Right-to-Left Mark)",
  entry 0xFEFF "BOM/ZWNBSP (Zero Width No-Break Space)"]

namespace CodePoint

/-- `U+` and at least four hexadecimal digits. -/
def label (c : CodePoint) : Text := lit "U+" ++ Numeral.hexCapital 4 c.val

/-- The catalogue name of a character. -/
def name? (c : CodePoint) : Option Text := catalogue.lookup c

end CodePoint

namespace Catalogue

/-- The catalogue name of a text that is one character. -/
def name? : Text → Option Text
  | [c] => c.name?
  | _ => none

/-- A label was asked for a text that is not one character. -/
structure NotOneCharacter where
  length : Nat
  deriving DecidableEq

def NotOneCharacter.message (e : NotOneCharacter) : Text :=
  lit "ord() expected a character, but string of length " ++ Numeral.ofNat e.length ++ lit " found"

def label : Text → Except NotOneCharacter Text
  | [c] => .ok c.label
  | t => .error ⟨t.length⟩

/-- Label and name of every character of the catalogue. -/
def listing : List (Text × Text) := catalogue.map fun (c, name) => (c.label, name)

end Catalogue

end HiddenText
