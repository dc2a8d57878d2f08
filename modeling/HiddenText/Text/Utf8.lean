import HiddenText.Text.Basic

/-!
# UTF-8

Bytes are cut into pieces: characters, and ill-formed runs.  An ill-formed run is the longest start
of some character's encoding that the next byte, or the end, does not let go on; a byte that starts
no character is a run of its own.  The three ways of reading bytes differ only in what they make of
an ill-formed run:

* `decode` refuses the bytes, with the reason of the first run,
* `decodeEscaped` keeps every byte of the run as a surrogate, so that nothing is lost,
* `decodeReplaced` puts one `U+FFFD` for the run.

`encode?` is the way back: a kept byte becomes that byte again, any other surrogate has no bytes.
-/

namespace HiddenText.Utf8

/-- Why a run of bytes is not UTF-8. -/
inductive Fault
  | invalidStart
  | invalidContinuation
  | truncated
  deriving DecidableEq

def Fault.reason : Fault → Text
  | .invalidStart => lit "invalid start byte"
  | .invalidContinuation => lit "invalid continuation byte"
  | .truncated => lit "unexpected end of data"

inductive Piece
  | char (c : CodePoint)
  | illFormed (bytes : Bytes) (fault : Fault)
  deriving DecidableEq

/-- An unfinished character: its bytes so far, the value of their payload bits, how many bytes are
still to come, and the bounds of the next one. -/
structure Pending where
  seen : Bytes
  bits : Nat
  missing : Nat
  low : Nat := 0x80
  high : Nat := 0xBF

/-- The pieces found so far, the latest first, and the character being read. -/
structure Cutter where
  pieces : List Piece := []
  pending : Option Pending := none

namespace Cutter

def emit (k : Cutter) (p : Piece) : Cutter := ⟨p :: k.pieces, none⟩

def await (k : Cutter) (p : Pending) : Cutter := ⟨k.pieces, some p⟩

/-- Reads a byte where a character starts.  The bounds on the second byte rule out overlong forms,
surrogates and values above `U+10FFFF`. -/
def start (k : Cutter) (b : UInt8) : Cutter :=
  let n := b.toNat
  if n < 0x80 then k.emit (.char (.ofNat n))
  else if n < 0xC2 then k.emit (.illFormed [b] .invalidStart)
  else if n < 0xE0 then k.await ⟨[b], n - 0xC0, 1, 0x80, 0xBF⟩
  else if n < 0xF0 then
    k.await ⟨[b], n - 0xE0, 2, if n = 0xE0 then 0xA0 else 0x80, if n = 0xED then 0x9F else 0xBF⟩
  else if n < 0xF5 then
    k.await ⟨[b], n - 0xF0, 3, if n = 0xF0 then 0x90 else 0x80, if n = 0xF4 then 0x8F else 0xBF⟩
  else k.emit (.illFormed [b] .invalidStart)

/-- Reads one byte.  One that cannot go on with the pending character ends that run and is looked at
again as a start. -/
def push (k : Cutter) (b : UInt8) : Cutter :=
  match k.pending with
  | none => k.start b
  | some p =>
    if p.low ≤ b.toNat ∧ b.toNat ≤ p.high then
      let bits := p.bits * 64 + (b.toNat - 0x80)
      if p.missing = 1 then k.emit (.char (.ofNat bits))
      else k.await { seen := p.seen ++ [b], bits := bits, missing := p.missing - 1 }
    else (k.emit (.illFormed p.seen .invalidContinuation)).start b

def finish (k : Cutter) : List Piece :=
  match k.pending with
  | none => k.pieces.reverse
  | some p => (Piece.illFormed p.seen .truncated :: k.pieces).reverse

end Cutter

/-- The characters and the ill-formed runs of the bytes, in order. -/
def pieces (bytes : Bytes) : List Piece := (bytes.foldl Cutter.push {}).finish

def Piece.fault? : Piece → Option Fault
  | .char _ => none
  | .illFormed _ f => some f

/-- What is read for a piece when each byte of an ill-formed run is kept. -/
def Piece.escaped : Piece → Text
  | .char c => [c]
  | .illFormed bytes _ => bytes.map CodePoint.ofByte

def Piece.replaced : Piece → CodePoint
  | .char c => c
  | .illFormed _ _ => .ofNat 0xFFFD

def decode (bytes : Bytes) : Except Fault Text :=
  let ps := pieces bytes
  match ps.findSome? Piece.fault? with
  | some f => .error f
  | none => .ok (ps.flatMap Piece.escaped)

def decodeEscaped (bytes : Bytes) : Text := (pieces bytes).flatMap Piece.escaped

def decodeReplaced (bytes : Bytes) : Text := (pieces bytes).map Piece.replaced

/-- The bytes of a code point by the general scheme; a kept byte is itself. -/
def encodeOne (c : CodePoint) : Bytes :=
  let n := c.val
  if n < 0x80 then [n.toUInt8]
  else if n < 0x800 then [(0xC0 + n / 64).toUInt8, (0x80 + n % 64).toUInt8]
  else if c.isEscapedByte then [(n - 0xDC00).toUInt8]
  else if n < 0x10000 then
    [(0xE0 + n / 4096).toUInt8, (0x80 + n / 64 % 64).toUInt8, (0x80 + n % 64).toUInt8]
  else
    [(0xF0 + n / 262144).toUInt8, (0x80 + n / 4096 % 64).toUInt8, (0x80 + n / 64 % 64).toUInt8,
      (0x80 + n % 64).toUInt8]

/-- Whether a code point has bytes: it is no surrogate, or keeps a byte. -/
def encodable (c : CodePoint) : Bool := !c.isSurrogate || c.isEscapedByte

def encode? (t : Text) : Option Bytes :=
  if t.all encodable then some (t.flatMap encodeOne) else none

end HiddenText.Utf8
