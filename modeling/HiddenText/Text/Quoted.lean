import HiddenText.Text.Numeral
import HiddenText.Text.Printable

/-!
# Quoted texts

Messages show a path or a setting in quotes, so that blanks at its ends and unprintable characters
can be seen.  Single quotes are used, or double quotes when the text has a single quote and no
double one; the quote in use, the backslash and every unprintable character are escaped.
-/

namespace HiddenText.Text

def singleQuote : CodePoint := .ofNat 0x27

def doubleQuote : CodePoint := .ofNat 0x22

def backslash : CodePoint := .ofNat 0x5C

/-- The shortest of the escapes `\xNN`, `\uNNNN` and `\UNNNNNNNN` that holds the code point. -/
def hexEscape (c : CodePoint) : Text :=
  if c.val < 0x100 then lit "\\x" ++ Numeral.hex 2 c.val
  else if c.val < 0x10000 then lit "\\u" ++ Numeral.hex 4 c.val
  else lit "\\U" ++ Numeral.hex 8 c.val

def escapeQuoted (quote c : CodePoint) : Text :=
  if c = quote || c = backslash then [backslash, c]
  else if c = CodePoint.newline then lit "\\n"
  else if c = CodePoint.ofChar '\r' then lit "\\r"
  else if c = CodePoint.ofChar '\t' then lit "\\t"
  else if c.isPrintable then [c]
  else hexEscape c

def quoteFor (t : Text) : CodePoint :=
  if t.contains singleQuote && !t.contains doubleQuote then doubleQuote else singleQuote

/-- The text in quotes. -/
def quoted (t : Text) : Text :=
  quoteFor t :: t.flatMap (escapeQuoted (quoteFor t)) ++ [quoteFor t]

end HiddenText.Text
