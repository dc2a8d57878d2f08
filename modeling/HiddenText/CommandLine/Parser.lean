import HiddenText.CommandLine.Token
import HiddenText.Text.Numeral

/-!
# Reading a command line

The tokens are taken from the left.  The first run of plain arguments is the paths; later runs, and
unknown options, are unrecognized.  An option takes its value from what is attached to it or else
from the next token.  Letters may be written together, and act only when the last of them has been
read.

The rules are those of `argparse` in its releases up to 3.11.9.  Later ones differ in corner cases:
they keep an attached value `--` (here `Given.dropped`), refuse a value that an equals sign attaches
to a letter that takes none (here it is read on as letters, see `Cluster.extend`), and leave an
unknown letter behind others unrecognized (here it is a value that the letter before it ignores).
-/

namespace HiddenText

/-- Whether the run of paths is still to come, going on or over. -/
inductive PathRun
  | awaited
  | going
  | over
  deriving DecidableEq

structure Progress where
  options : Options := {}
  run : PathRun := .awaited
  unrecognized : List Text := []

namespace Progress

def reject (p : Progress) (t : Text) : Progress := { p with unrecognized := p.unrecognized ++ [t] }

def endRun (p : Progress) : Progress := if p.run = .going then { p with run := .over } else p

def takeArgument (p : Progress) (t : Text) : Progress :=
  if p.run = .over then p.reject t
  else { p with options.paths := p.options.paths ++ [t], run := .going }

/-- The separator belongs to a run like an argument, but is not itself a path. -/
def takeSeparator (p : Progress) : Progress :=
  if p.run = .over then p.reject Token.separatorText else { p with run := .going }

end Progress

/-- Switches written together: those before the last take no value. -/
structure Cluster where
  flags : List Switch
  last : Switch
  attached : Option Text

namespace Cluster

/-- Reads what is attached to a switch: its value, or further letters. -/
def extend (flags : List Switch) (s : Switch) (byLetter : Bool) :
    Text → Except UsageError Cluster
  | [] => if s.takesValue then .ok ⟨flags, s, some []⟩ else .error (.ignoredValue s [])
  | c :: rest =>
    if s.takesValue then .ok ⟨flags, s, some (c :: rest)⟩
    else if byLetter then
      match Switch.ofLetter? c with
      | none => .error (.ignoredValue s (c :: rest))
      | some next =>
        if rest.isEmpty then .ok ⟨flags ++ [s], next, none⟩
        else extend (flags ++ [s]) next true rest
    else .error (.ignoredValue s (c :: rest))

def ofOption (s : Switch) (byLetter : Bool) : Option Text → Except UsageError Cluster
  | none => .ok ⟨[], s, none⟩
  | some attached => extend [] s byLetter attached

end Cluster

namespace Options

/-- A switch that takes no value acts. -/
def flag (o : Options) : Switch → Except Stop Options
  | .help => .error .help
  | .verbose => .ok { o with verbosity := o.verbosity + 1 }
  | _ => .ok o

def flagAll (o : Options) : List Switch → Except Stop Options
  | [] => .ok o
  | s :: rest =>
    match o.flag s with
    | .ok o' => o'.flagAll rest
    | .error stop => .error stop

/-- A switch acts with a value. -/
def set (o : Options) (s : Switch) (value : Text) : Except Stop Options :=
  let given : Given Text := if value = Token.separatorText then .dropped else .value value
  match s with
  | .walk => .ok { o with walk := some given }
  | .report => .ok { o with report := some given }
  | .jobs =>
    match given with
    | .dropped => .ok { o with jobs := some .dropped }
    | .value t =>
      match Numeral.toInt? t with
      | some n => .ok { o with jobs := some (.value n) }
      | none => .error (.usage (.invalidNumber t))
  | .help | .verbose => .ok o

end Options

namespace Progress

/-- Options act on what has been read. -/
def act (p : Progress) (change : Options → Except Stop Options) : Except Stop Progress :=
  (change p.options).map fun o => { p with options := o }

/-- Takes the tokens one by one. -/
def consume (p : Progress) : List Token → Except Stop Progress
  | [] => .ok p
  | .argument t :: rest => (p.takeArgument t).consume rest
  | .separator :: rest => p.takeSeparator.consume rest
  | .unknown t :: rest => (p.endRun.reject t).consume rest
  | .option s byLetter attached :: rest =>
    match Cluster.ofOption s byLetter attached with
    | .error e => .error (.usage e)
    | .ok c =>
      if c.last.takesValue then
        match c.attached with
        | some value =>
          match p.endRun.act fun o => (o.flagAll c.flags).bind (·.set c.last value) with
          | .ok p' => p'.consume rest
          | .error stop => .error stop
        | none =>
          match rest with
          | .argument value :: rest' =>
            match p.endRun.act fun o => (o.flagAll c.flags).bind (·.set c.last value) with
            | .ok p' => p'.consume rest'
            | .error stop => .error stop
          | _ => .error (.usage (.missingValue c.last))
      else
        match p.endRun.act fun o => (o.flagAll c.flags).bind (·.flag c.last) with
        | .ok p' => p'.consume rest
        | .error stop => .error stop

end Progress

/-- What a command line asks for. -/
def Options.parse (arguments : List Text) : Except Stop Options :=
  match Token.ofArguments arguments with
  | .error e => .error (.usage e)
  | .ok tokens =>
    match Progress.consume {} tokens with
    | .error stop => .error stop
    | .ok p =>
      if p.unrecognized.isEmpty then .ok p.options
      else .error (.usage (.unrecognized p.unrecognized))

end HiddenText
