import HiddenText.Proofs.CommandLine.Extended
import HiddenText.Proofs.Text.Numerals
import Mathlib.Data.List.Perm.Basic

/-!
# Options written as a command line

Options can be written out: each value attached to its switch, and a letter for each degree of
verbosity (`Setting.argument`).  Read one after the other such arguments act one by one, whatever
their values look like (`Options.parse_append_settings`), and since no two of them set the same
option, their order does not matter (`Options.foldl_apply_of_perm`).  The paths go behind a
separator, or in front if none of them could be taken for an option.

Main statement: `Options.parse_settings`.
-/

namespace HiddenText

/-- One thing that a command line asks for besides paths. -/
inductive Setting
  | walk (directory : Text)
  | report (path : Text)
  | jobs (n : Int)
  | verbose
  deriving DecidableEq

/-- What a setting does to the options. -/
def Options.apply (o : Options) : Setting → Options
  | .walk directory => { o with walk := some (.value directory) }
  | .report path => { o with report := some (.value path) }
  | .jobs n => { o with jobs := some (.value n) }
  | .verbose => { o with verbosity := o.verbosity + 1 }

namespace Setting

variable {walk report : Option Text} {jobs : Option Int} {verbosity : Nat} {s s' : Setting}

/-- The argument that is written for it. -/
def argument : Setting → Text
  | .walk directory => Switch.walk.withValue directory
  | .report path => Switch.report.withValue path
  | .jobs n => Switch.jobs.withValue (Numeral.ofInt n)
  | .verbose => lit "-v"

/-- Values that can be passed: not the separator, and not a number that is too long. -/
def IsWritable : Setting → Prop
  | .walk t | .report t => t ≠ Token.separatorText
  | .jobs n => (Numeral.digits 10 n.natAbs).length ≤ Numeral.digitLimit
  | .verbose => True

def switch : Setting → Switch
  | .walk _ => .walk
  | .report _ => .report
  | .jobs _ => .jobs
  | .verbose => .verbose

/-- All that is asked for by these values, in one order. -/
def ofValues (walk report : Option Text) (jobs : Option Int) (verbosity : Nat) : List Setting :=
  walk.toList.map .walk ++ report.toList.map .report ++ jobs.toList.map .jobs ++
    List.replicate verbosity .verbose

theorem mem_ofValues : s ∈ ofValues walk report jobs verbosity ↔
    match s with
    | .walk t => walk = some t
    | .report t => report = some t
    | .jobs n => jobs = some n
    | .verbose => verbosity ≠ 0 := by
  cases s <;> simp [ofValues]

theorem eq_of_switch_eq (hs : s ∈ ofValues walk report jobs verbosity)
    (hs' : s' ∈ ofValues walk report jobs verbosity) (h : s.switch = s'.switch) : s = s' := by
  rw [mem_ofValues] at hs hs'
  cases s <;> cases s' <;> simp_all [switch]

theorem isWritable_of_mem (hwalk : walk ≠ some Token.separatorText)
    (hreport : report ≠ some Token.separatorText)
    (hjobs : ∀ n ∈ jobs, (Numeral.digits 10 n.natAbs).length ≤ Numeral.digitLimit)
    (hs : s ∈ ofValues walk report jobs verbosity) : s.IsWritable := by
  rw [mem_ofValues] at hs
  cases s with
  | walk t =>
    rintro rfl
    exact hwalk hs
  | report t =>
    rintro rfl
    exact hreport hs
  | jobs n => exact hjobs n hs
  | verbose => trivial

theorem argument_ne_separatorText (s : Setting) : s.argument ≠ Token.separatorText := by
  cases s with
  | walk _ | report _ | jobs _ => exact Token.withValue_ne_separatorText _ _
  | verbose => decide

end Setting

namespace Options

variable {o : Options} {before paths : List Text} {settings : List Setting}
  {walk report : Option Text} {jobs : Option Int} {verbosity : Nat}

/-! ## Any order -/

/-- Two settings may change places unless they set the same option differently. -/
theorem apply_comm {s s' : Setting} (h : s.switch = s'.switch → s = s') (o : Options) :
    (o.apply s).apply s' = (o.apply s').apply s := by
  by_cases hs : s = s'
  · rw [hs]
  · have hne : s.switch ≠ s'.switch := mt h hs
    cases s <;> cases s' <;> first | rfl | exact absurd rfl hne

theorem foldl_apply_of_perm (h : settings.Perm (Setting.ofValues walk report jobs verbosity))
    (o : Options) : settings.foldl apply o =
      (Setting.ofValues walk report jobs verbosity).foldl apply o := by
  refine h.foldl_eq' (fun s hs s' hs' o => ?_) o
  exact apply_comm (Setting.eq_of_switch_eq (h.mem_iff.mp hs) (h.mem_iff.mp hs')) o

theorem foldl_apply_replicate (n : Nat) (o : Options) :
    (List.replicate n Setting.verbose).foldl apply o =
      { o with verbosity := o.verbosity + n } := by
  induction n generalizing o with
  | zero => rfl
  | succ n ih =>
    rw [List.replicate_succ, List.foldl_cons, ih, apply, Nat.add_assoc, Nat.add_comm 1]

theorem foldl_apply_ofValues (paths : List Text) (walk report : Option Text) (jobs : Option Int)
    (verbosity : Nat) :
    (Setting.ofValues walk report jobs verbosity).foldl apply { paths } =
      { paths, walk := walk.map .value, report := report.map .value, jobs := jobs.map .value,
        verbosity } := by
  rw [Setting.ofValues, List.foldl_append, foldl_apply_replicate]
  cases walk <;> cases report <;> cases jobs <;> simp [apply]

/-! ## One by one -/

theorem set_walk {directory : Text} (h : directory ≠ Token.separatorText) :
    o.set .walk directory = .ok (o.apply (.walk directory)) := by
  simp [set, apply, h]

theorem set_report {path : Text} (h : path ≠ Token.separatorText) :
    o.set .report path = .ok (o.apply (.report path)) := by
  simp [set, apply, h]

theorem set_jobs {n : Int} (h : (Numeral.digits 10 n.natAbs).length ≤ Numeral.digitLimit) :
    o.set .jobs (Numeral.ofInt n) = .ok (o.apply (.jobs n)) :=
  set_jobs_of_toInt? (Numeral.toInt?_ofInt h) o

theorem parse_append_verbose (h : parse before = .ok o)
    (hseparator : Token.separatorText ∉ before) :
    parse (before ++ [lit "-v"]) = .ok (o.apply .verbose) := by
  obtain ⟨p, rfl, hunrecognized, -, hparse⟩ := exists_parse_append h hseparator
  have htokens : Token.ofArguments [lit "-v"] = .ok [.option .verbose true none] := rfl
  have hconsume : p.consume [.option .verbose true none] =
      .ok { p.endRun with options := p.options.apply .verbose } := by
    have hact : p.endRun.act (fun o => (o.flagAll []).bind (·.flag .verbose)) =
        .ok { p.endRun with options := p.options.apply .verbose } := by
      rw [Progress.act, Progress.endRun_options]
      rfl
    rw [Progress.consume]
    simp only [Cluster.ofOption, Switch.takesValue, Bool.false_eq_true, if_false, hact]
    rfl
  refine hparse _ _ _ htokens hconsume ?_
  rw [Progress.endRun]
  split <;> exact hunrecognized

theorem parse_append_setting (h : parse before = .ok o)
    (hseparator : Token.separatorText ∉ before) {s : Setting} (hs : s.IsWritable) :
    parse (before ++ [s.argument]) = .ok (o.apply s) := by
  cases s with
  | walk t => exact parse_append_withValue h hseparator rfl (set_walk hs)
  | report t => exact parse_append_withValue h hseparator rfl (set_report hs)
  | jobs n => exact parse_append_withValue h hseparator rfl (set_jobs hs)
  | verbose => exact parse_append_verbose h hseparator

theorem parse_append_settings (h : parse before = .ok o)
    (hseparator : Token.separatorText ∉ before) (hsettings : ∀ s ∈ settings, s.IsWritable) :
    parse (before ++ settings.map Setting.argument) = .ok (settings.foldl apply o) := by
  induction settings generalizing before o with
  | nil =>
    rw [List.map_nil, List.append_nil]
    exact h
  | cons s settings ih =>
    obtain ⟨hs, hrest⟩ := List.forall_mem_cons.mp hsettings
    have hfirst := parse_append_setting h hseparator hs
    have hnot : Token.separatorText ∉ before ++ [s.argument] := by
      rw [List.mem_append, List.mem_singleton]
      exact not_or.mpr ⟨hseparator, (Setting.argument_ne_separatorText s).symm⟩
    have hmore := ih hfirst hnot hrest
    rwa [List.append_assoc, List.singleton_append] at hmore

/-! ## Paths in front -/

theorem classify_of_head {t : Text} (h : t.head? ≠ some CodePoint.hyphen) :
    Token.classify t = .ok (.argument t) := by
  match t, h with
  | [], _ | [_], _ => rfl
  | a :: b :: rest, h =>
    have ha : a ≠ CodePoint.hyphen := fun heq => h (congrArg some heq)
    rw [Token.classify, if_pos ha]

theorem ofArguments_of_heads (h : ∀ path ∈ paths, path.head? ≠ some CodePoint.hyphen) :
    Token.ofArguments paths = .ok (paths.map .argument) := by
  induction paths with
  | nil => rfl
  | cons path paths ih =>
    obtain ⟨hpath, hpaths⟩ := List.forall_mem_cons.mp h
    have hne : path ≠ Token.separatorText := by
      rintro rfl
      exact hpath rfl
    rw [Token.ofArguments, if_neg hne, classify_of_head hpath, ih hpaths]
    rfl

theorem parse_paths (h : ∀ path ∈ paths, path.head? ≠ some CodePoint.hyphen) :
    parse paths = .ok { paths } := by
  rw [parse, ofArguments_of_heads h]
  cases paths with
  | nil => rfl
  | cons path paths =>
    have hfirst : Progress.takeArgument {} path = ⟨{ paths := [path] }, .going, []⟩ := rfl
    simp only [List.map_cons]
    rw [Progress.consume, hfirst, Progress.consume_arguments]
    rfl

/-! ## The round trip -/

/-- **What is written out as a command line is read back.**  The values to pass are any texts but the
separator, and any integer that is not too long; they may be written in any order, each attached to
its switch, with the letters for the verbosity anywhere between them.  With a separator and then the
paths behind them, the command line asks for exactly these values and these paths, whatever the
paths look like; and with the paths in front and no separator as well, as long as no path starts
with a hyphen. -/
theorem parse_settings (hwalk : walk ≠ some Token.separatorText)
    (hreport : report ≠ some Token.separatorText)
    (hjobs : ∀ n ∈ jobs, (Numeral.digits 10 n.natAbs).length ≤ Numeral.digitLimit)
    (hsettings : settings.Perm (Setting.ofValues walk report jobs verbosity))
    (paths : List Text) :
    let o : Options :=
      { paths, walk := walk.map .value, report := report.map .value, jobs := jobs.map .value,
        verbosity }
    parse (settings.map Setting.argument ++ Token.separatorText :: paths) = .ok o ∧
      ((∀ path ∈ paths, path.head? ≠ some CodePoint.hyphen) →
        parse (paths ++ settings.map Setting.argument) = .ok o) := by
  have hwritable : ∀ s ∈ settings, s.IsWritable := fun s hs =>
    Setting.isWritable_of_mem hwalk hreport hjobs (hsettings.mem_iff.mp hs)
  have happly : ∀ paths, settings.foldl apply { paths } = _ := fun paths =>
    (foldl_apply_of_perm hsettings _).trans
      (foldl_apply_ofValues paths walk report jobs verbosity)
  constructor
  · have hnil : parse [] = .ok {} := rfl
    have hparse := parse_append_settings hnil List.not_mem_nil hwritable
    rw [List.nil_append, happly] at hparse
    refine parse_append_separator hparse ?_ rfl paths
    rw [List.mem_map]
    rintro ⟨s, -, hs⟩
    exact Setting.argument_ne_separatorText s hs
  · intro hheads
    have hseparator : Token.separatorText ∉ paths := fun hmem => hheads _ hmem rfl
    have hparse := parse_append_settings (parse_paths hheads) hseparator hwritable
    rwa [happly] at hparse

/-- Values and paths that look like options. -/
def oddSettings : List Setting :=
  [.verbose, .jobs (-50), .report (lit "-v=--walk= x"), .verbose, .walk []]

def oddPaths : List Text := [lit "--", lit "--walk=a", [], lit "-v", lit "--"]

def oddArguments : List Text :=
  [lit "-v", lit "--jobs=-50", lit "--report=-v=--walk= x", lit "-v", lit "--walk="]

theorem map_argument_oddSettings : oddSettings.map Setting.argument = oddArguments := by
  have hdigits : Numeral.digits 10 50 = [5, 0] := by simp [Numeral.digits]
  have hnumber : Numeral.ofInt (-50) = lit "-50" := by
    rw [Numeral.ofInt, if_pos (by decide), Numeral.ofNat]
    have habs : (-50 : Int).natAbs = 50 := rfl
    rw [habs, hdigits]
    decide
  simp only [oddSettings, List.map_cons, List.map_nil, Setting.argument, hnumber]
  rfl

theorem parse_settings_odd :
    oddSettings.Perm (Setting.ofValues (some []) (some (lit "-v=--walk= x")) (some (-50)) 2) ∧
      parse (oddArguments ++ lit "--" :: oddPaths) =
        .ok { paths := oddPaths, walk := some (.value []),
              report := some (.value (lit "-v=--walk= x")), jobs := some (.value (-50)),
              verbosity := 2 } ∧
      parse ([[], lit "a b"] ++ oddArguments) =
        .ok { paths := [[], lit "a b"], walk := some (.value []),
              report := some (.value (lit "-v=--walk= x")), jobs := some (.value (-50)),
              verbosity := 2 } := by
  have hperm : oddSettings.Perm
      (Setting.ofValues (some []) (some (lit "-v=--walk= x")) (some (-50)) 2) := by decide
  have hjobs : ∀ n ∈ some (-50 : Int),
      (Numeral.digits 10 n.natAbs).length ≤ Numeral.digitLimit := by
    intro n hn
    obtain rfl := Option.some.inj hn
    simp [Numeral.digits, Numeral.digitLimit]
  have hodd := parse_settings (by decide) (by decide) hjobs hperm
  rw [map_argument_oddSettings] at hodd
  exact ⟨hperm, (hodd oddPaths).1, (hodd [[], lit "a b"]).2 (by decide)⟩

end Options

end HiddenText
