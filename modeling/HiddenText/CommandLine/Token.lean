import HiddenText.CommandLine.Options

/-!
# Command line tokens

Every argument is classified before any is used.  The first `--` is the separator, and whatever
comes after it is a plain argument.  Before it, an argument that starts with a hyphen is an option
if it spells a switch in full, a switch and `=` and a value, an unambiguous beginning of a long
switch, or a letter with more behind it.  What looks like a negative number or holds a space is a
plain argument all the same, and so is a hyphen alone.  As in `argparse` up to its release 3.11.9,
what stands behind a letter and an equals sign is attached to the letter without the sign.
-/

namespace HiddenText

inductive Token
  | argument (t : Text)
  | separator
  /-- A switch, given by its letter or in long form, with the value attached to it. -/
  | option (s : Switch) (byLetter : Bool) (attached : Option Text)
  | unknown (t : Text)
  deriving DecidableEq

namespace Token

def separatorText : Text := lit "--"

def equals : CodePoint := .ofNat 0x3D

/-- The text before the first equals sign, and the text after it if there is one. -/
def cutAtEquals (t : Text) : Text × Option Text :=
  match t.dropWhile (· != equals) with
  | [] => (t, none)
  | _ :: value => (t.takeWhile (· != equals), some value)

/-- The switch that a text spells in full, and whether by its letter. -/
def spelled? (t : Text) : Option (Switch × Bool) :=
  match Switch.all.find? (fun s => s.long == t) with
  | some s => some (s, false)
  | none =>
    match t with
    | [h, c] => if h = CodePoint.hyphen then (Switch.ofLetter? c).map (·, true) else none
    | _ => none

/-- Whether a text that starts with a hyphen reads as a negative number.  A line feed at its end
does not count. -/
def isNegativeNumber (t : Text) : Bool :=
  let body := t.drop 1
  let body := if body.getLast? = some CodePoint.newline then body.dropLast else body
  let isWhole (digits : Text) := !digits.isEmpty && digits.all CodePoint.isDigit
  isWhole body ||
    match body.dropWhile CodePoint.isDigit with
    | [] => false
    | c :: rest => c = CodePoint.ofChar '.' && isWhole rest

/-- An argument that starts with a hyphen and matches no switch. -/
def unmatched (t : Text) : Token :=
  if isNegativeNumber t || t.contains CodePoint.space then .argument t else .unknown t

/-- An argument that starts with two hyphens and spells no switch in full. -/
def ofLong (t : Text) : Except UsageError Token :=
  let (start, attached) := cutAtEquals t
  match Switch.all.filter fun s => start.isPrefixOf s.long with
  | [] => .ok (unmatched t)
  | [s] => .ok (.option s false attached)
  | candidates => .error (.ambiguous t candidates)

/-- An argument before the separator. -/
def classify (t : Text) : Except UsageError Token :=
  match t with
  | [] => .ok (.argument t)
  | [_] => .ok (.argument t)
  | h :: c :: rest =>
    if h ≠ CodePoint.hyphen then .ok (.argument t)
    else
      match spelled? t with
      | some (s, byLetter) => .ok (.option s byLetter none)
      | none =>
        match cutAtEquals t with
        | (start, some value) =>
          match spelled? start with
          | some (s, byLetter) => .ok (.option s byLetter (some value))
          | none => unspelled h c rest
        | (_, none) => unspelled h c rest
where
  unspelled (h c : CodePoint) (rest : Text) : Except UsageError Token :=
    if c = CodePoint.hyphen then ofLong (h :: c :: rest)
    else
      match Switch.ofLetter? c with
      | some s => .ok (.option s true (some rest))
      | none => .ok (unmatched (h :: c :: rest))

/-- The tokens of a command line. -/
def ofArguments : List Text → Except UsageError (List Token)
  | [] => .ok []
  | t :: rest =>
    if t = separatorText then .ok (.separator :: rest.map .argument)
    else
      match classify t with
      | .error e => .error e
      | .ok token => (ofArguments rest).map (token :: ·)

end Token

end HiddenText
