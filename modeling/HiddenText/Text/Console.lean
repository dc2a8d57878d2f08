import HiddenText.Text.Quoted

/-!
# Console text

A console takes characters only.  While the command line is being read, surrogates are shown as
escapes, afterwards as question marks.
-/

namespace HiddenText.Text

/-- Surrogates become question marks. -/
def marked (t : Text) : Text := t.map fun c => if c.isSurrogate then CodePoint.ofChar '?' else c

/-- Surrogates become escapes. -/
def escaped (t : Text) : Text := t.flatMap fun c => if c.isSurrogate then hexEscape c else [c]

end HiddenText.Text
