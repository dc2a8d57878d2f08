import HiddenText.Json.Basic

/-!
# Reading JSON

A reader for all of RFC 8259, apart from the printer, with which reports are read back.

* `lex`: the lexemes of a text.  The lexer goes from mode to mode, one character at a time; strings
  are unescaped on the way, and words are classified where they end.
* `Expect.step`: the parser, one lexeme at a time, over a stack of unfinished arrays and objects.
* `decode`: the value of a text that holds one value and nothing else.

Code points stand in strings for themselves, surrogates included; two escapes `\uXXXX` that spell a
surrogate pair stand for one code point.  Numbers are read exactly and the members of an object keep
their order, equal names included.
-/

namespace HiddenText.Json

inductive Value
  | null
  | bool (b : Bool)
  /-- The number `mantissa * 10 ^ exponent`. -/
  | number (mantissa exponent : Int)
  | text (t : Text)
  | array (items : List Value)
  | object (members : List (Text × Value))

inductive Lexeme
  | openArray
  | closeArray
  | openObject
  | closeObject
  | colon
  | comma
  | string (t : Text)
  /-- A literal or a number. -/
  | word (v : Value)

/-! ## Words -/

def isDecimal (c : CodePoint) : Bool := 0x30 ≤ c.val && c.val ≤ 0x39

/-- The number with the given digits. -/
def decimal (ds : Text) : Nat := Numeral.value (ds.map fun c => c.val - 0x30)

def signed (negative : Bool) (n : Nat) : Int := if negative then -(n : Int) else n

def splitMinus : Text → Bool × Text
  | [] => (false, [])
  | c :: w => if c = CodePoint.hyphen then (true, w) else (false, c :: w)

/-- The digits after the point, if there is one, and what follows them. -/
def fraction? : Text → Option (Text × Text)
  | [] => some ([], [])
  | c :: w =>
    if c = CodePoint.ofChar '.' then
      if (w.takeWhile isDecimal).isEmpty then none
      else some (w.takeWhile isDecimal, w.dropWhile isDecimal)
    else some ([], c :: w)

/-- The power of ten at the end of a number; none where something else is left. -/
def power? : Text → Option Int
  | [] => some 0
  | c :: w =>
    let (negative, ds) := Numeral.splitSign w
    if (c = CodePoint.ofChar 'e' || c = CodePoint.ofChar 'E') && !ds.isEmpty
        && ds.all isDecimal then
      some (signed negative (decimal ds))
    else none

/-- The digits before the point: no zero stands before another digit. -/
def isWhole (ds : Text) : Bool :=
  ds.length == 1 || (!ds.isEmpty && ds.head? != some (Numeral.digitChar 0))

def number? (w : Text) : Option Value :=
  let (negative, body) := splitMinus w
  let whole := body.takeWhile isDecimal
  if isWhole whole then
    (fraction? (body.dropWhile isDecimal)).bind fun (parts, rest) =>
      (power? rest).map fun power =>
        .number (signed negative (decimal (whole ++ parts))) (power - parts.length)
  else none

def word? (w : Text) : Option Value :=
  if w = lit "null" then some .null
  else if w = lit "true" then some (.bool true)
  else if w = lit "false" then some (.bool false)
  else number? w

/-! ## The lexer -/

inductive Mode
  | between
  | word (w : Text)
  /-- In a string, of which `s` is read.  The last unit may be half of an escaped surrogate pair. -/
  | string (s : Text) (high : Option Nat)
  | escape (s : Text) (high : Option Nat)
  /-- In the escape of a unit, with so many digits missing after the next one. -/
  | unit (s : Text) (high : Option Nat) (missing value : Nat)

def isWhite (c : CodePoint) : Bool := c.val = 0x20 || c.val = 0x09 || c.val = 0x0A || c.val = 0x0D

def mark? (c : CodePoint) : Option Lexeme :=
  if c.val = 0x5B then some .openArray
  else if c.val = 0x5D then some .closeArray
  else if c.val = 0x7B then some .openObject
  else if c.val = 0x7D then some .closeObject
  else if c.val = 0x3A then some .colon
  else if c.val = 0x2C then some .comma
  else none

/-- Whether a word ends before the character. -/
def endsWord (c : CodePoint) : Bool := isWhite c || (mark? c).isSome || c = Text.doubleQuote

/-- What a character is between lexemes. -/
def start (c : CodePoint) : List Lexeme × Mode :=
  if isWhite c then ([], .between)
  else if c = Text.doubleQuote then ([], .string [] none)
  else
    match mark? c with
    | some l => ([l], .between)
    | none => ([], .word [c])

def hexDigit? (c : CodePoint) : Option Nat :=
  if isDecimal c then some (c.val - 0x30)
  else if 0x61 ≤ c.val && c.val ≤ 0x66 then some (c.val - 0x57)
  else if 0x41 ≤ c.val && c.val ≤ 0x46 then some (c.val - 0x37)
  else none

/-- What a character stands for after a backslash. -/
def escaped? (c : CodePoint) : Option CodePoint :=
  if c = Text.doubleQuote || c = Text.backslash || c = CodePoint.slash then some c
  else if c = CodePoint.ofChar 'b' then some (.ofNat 0x08)
  else if c = CodePoint.ofChar 'f' then some (.ofNat 0x0C)
  else if c = CodePoint.ofChar 'n' then some CodePoint.newline
  else if c = CodePoint.ofChar 'r' then some (CodePoint.ofChar '\r')
  else if c = CodePoint.ofChar 't' then some (CodePoint.ofChar '\t')
  else none

def isHigh (n : Nat) : Bool := 0xD800 ≤ n && n ≤ 0xDBFF

def isLow (n : Nat) : Bool := 0xDC00 ≤ n && n ≤ 0xDFFF

/-- The string after an escaped unit: a low surrogate completes a high one. -/
def addUnit (s : Text) (high : Option Nat) (n : Nat) : Mode :=
  match high with
  | some h =>
    if isLow n then
      .string (s.dropLast ++ [.ofNat (0x10000 + (h - 0xD800) * 0x400 + (n - 0xDC00))]) none
    else .string (s ++ [.ofNat n]) (if isHigh n then some n else none)
  | none => .string (s ++ [.ofNat n]) (if isHigh n then some n else none)

/-- One more character: the lexemes that it completes, and the mode after it. -/
def push (c : CodePoint) : Mode → Option (List Lexeme × Mode)
  | .between => some (start c)
  | .word w =>
    if endsWord c then (word? w).map fun v => (.word v :: (start c).1, (start c).2)
    else some ([], .word (w ++ [c]))
  | .string s high =>
    if c = Text.doubleQuote then some ([.string s], .between)
    else if c = Text.backslash then some ([], .escape s high)
    else if c.val < 0x20 then none
    else some ([], .string (s ++ [c]) none)
  | .escape s high =>
    if c = CodePoint.ofChar 'u' then some ([], .unit s high 3 0)
    else (escaped? c).map fun d => ([], .string (s ++ [d]) none)
  | .unit s high 0 value => (hexDigit? c).map fun d => ([], addUnit s high (16 * value + d))
  | .unit s high (missing + 1) value =>
    (hexDigit? c).map fun d => ([], .unit s high missing (16 * value + d))

/-- The lexemes that the end of the text completes. -/
def close : Mode → Option (List Lexeme)
  | .between => some []
  | .word w => (word? w).map fun v => [.word v]
  | _ => none

/-- The lexemes of a text, from a mode on. -/
def lex (mode : Mode) : Text → Option (List Lexeme)
  | [] => close mode
  | c :: rest => (push c mode).bind fun (ls, mode') => (lex mode' rest).map (ls ++ ·)

/-! ## The parser -/

inductive Frame
  | array (items : List Value)
  /-- An object before the value of its next member. -/
  | object (members : List (Text × Value)) (name : Text)

/-- What the parser expects next, within the frames on the stack. -/
inductive Expect
  | value (stack : List Frame)
  | firstItem (stack : List Frame)
  | firstName (stack : List Frame)
  | name (members : List (Text × Value)) (stack : List Frame)
  | colon (members : List (Text × Value)) (name : Text) (stack : List Frame)
  | after (v : Value) (stack : List Frame)

/-- What is expected after the first lexeme of a value. -/
def begin (stack : List Frame) : Lexeme → Option Expect
  | .openArray => some (.firstItem stack)
  | .openObject => some (.firstName stack)
  | .string t => some (.after (.text t) stack)
  | .word v => some (.after v stack)
  | _ => none

namespace Expect

def step : Expect → Lexeme → Option Expect
  | .value stack, l => begin stack l
  | .firstItem stack, .closeArray => some (.after (.array []) stack)
  | .firstItem stack, l => begin (.array [] :: stack) l
  | .firstName stack, .closeObject => some (.after (.object []) stack)
  | .firstName stack, .string n => some (.colon [] n stack)
  | .name ms stack, .string n => some (.colon ms n stack)
  | .colon ms n stack, .colon => some (.value (.object ms n :: stack))
  | .after v (.array items :: stack), .comma => some (.value (.array (items ++ [v]) :: stack))
  | .after v (.array items :: stack), .closeArray => some (.after (.array (items ++ [v])) stack)
  | .after v (.object ms n :: stack), .comma => some (.name (ms ++ [(n, v)]) stack)
  | .after v (.object ms n :: stack), .closeObject =>
    some (.after (.object (ms ++ [(n, v)])) stack)
  | _, _ => none

def finish : Expect → Option Value
  | .after v [] => some v
  | _ => none

end Expect

/-- The value of a text. -/
def decode (t : Text) : Option Value :=
  (lex .between t).bind fun ls => (ls.foldlM Expect.step (.value [])).bind Expect.finish

end HiddenText.Json
