import HiddenText.Text.Quoted

/-!
# JSON

The JSON values of which reports are made, and how they are written: one item or field a line, two
spaces deeper than what encloses it, empty arrays and objects closed at once.  Characters stand for
themselves, surrogates included, except the quote, the backslash and the characters below the space.
-/

namespace HiddenText

inductive Json
  | text (t : Text)
  | int (i : Int)
  | array (items : List Json)
  | object (fields : List (Text × Json))

namespace Json

/-- A new line, with so many levels of indentation. -/
def lineAt (depth : Nat) : Text := CodePoint.newline :: List.replicate (2 * depth) CodePoint.space

def escape (c : CodePoint) : Text :=
  if c = Text.doubleQuote then lit "\\\""
  else if c = Text.backslash then lit "\\\\"
  else if c = CodePoint.newline then lit "\\n"
  else if c = CodePoint.ofChar '\r' then lit "\\r"
  else if c = CodePoint.ofChar '\t' then lit "\\t"
  else if c.val = 0x0C then lit "\\f"
  else if c.val = 0x08 then lit "\\b"
  else if c.val < 0x20 then lit "\\u" ++ Numeral.hex 4 c.val
  else [c]

def string (t : Text) : Text := Text.doubleQuote :: t.flatMap escape ++ [Text.doubleQuote]

/-- The written parts, a line each, between the opening and the closing character. -/
def enclose (opening closing : CodePoint) (depth : Nat) (parts : List Text) : Text :=
  if parts.isEmpty then [opening, closing]
  else
    opening :: lineAt (depth + 1)
      ++ Text.join (CodePoint.ofChar ',' :: lineAt (depth + 1)) parts
      ++ lineAt depth ++ [closing]

mutual

/-- The written form of a value that stands at some depth. -/
def print (depth : Nat) : Json → Text
  | .text t => string t
  | .int i => Numeral.ofInt i
  | .array items => enclose (.ofNat 0x5B) (.ofNat 0x5D) depth (printItems (depth + 1) items)
  | .object fields => enclose (.ofNat 0x7B) (.ofNat 0x7D) depth (printFields (depth + 1) fields)

def printItems (depth : Nat) : List Json → List Text
  | [] => []
  | v :: rest => print depth v :: printItems depth rest

def printFields (depth : Nat) : List (Text × Json) → List Text
  | [] => []
  | (key, v) :: rest => (string key ++ lit ": " ++ print depth v) :: printFields depth rest

end

/-- The written form of a value that stands alone. -/
def render (v : Json) : Text := v.print 0

end Json

end HiddenText
