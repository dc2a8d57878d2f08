import HiddenText.Catalogue

/-!
# Findings

`Finding.all` lists the catalogued characters of a text with their offsets, in code points from 0,
and their lines, from 1.  Only a line feed ends a line.
-/

namespace HiddenText

/-- An occurrence of a catalogued character. -/
structure Finding where
  char : Text
  codepoint : Text
  name : Text
  position : Int
  line : Int
  deriving DecidableEq

namespace Finding

/-- The finding for a character with the given name. -/
def ofChar (c : CodePoint) (name : Text) (position line : Nat) : Finding :=
  { char := [c], codepoint := c.label, name, position, line }

/-- Goes on from an offset and a line, with the findings so far, the latest first. -/
def collect (found : List Finding) (position line : Nat) : Text → List Finding
  | [] => found.reverse
  | c :: rest =>
    if c = CodePoint.newline then collect found (position + 1) (line + 1) rest
    else
      match c.name? with
      | some name => collect (Finding.ofChar c name position line :: found) (position + 1) line rest
      | none => collect found (position + 1) line rest

/-- The findings of a text, by offset. -/
def all (t : Text) : List Finding := collect [] 0 1 t

end Finding

end HiddenText
