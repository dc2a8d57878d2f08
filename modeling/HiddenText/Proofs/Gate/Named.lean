import HiddenText.Proofs.CommandLine.Extended
import HiddenText.Proofs.Gate.Providers

/-!
# Walking and naming files

To walk a directory, and to name the files that a walk of it lists, comes to the same.  Behind the
separator the names are read as they are, whatever they look like.  From the list on a run depends
on where its files come from for nothing but its banner and its log (`Gate.finish_congr`).

Main statement: `Gate.run_walk_eq_run_named`.
-/

namespace HiddenText

namespace Gate

variable {w : World} {before paths : List Text} {o : Options} {n : Int} {dir : Text}

/-- Where the files come from makes a difference to the banner only. -/
theorem finish_congr (w : World) (o : Options) (n : Int) (p q : Provider) (log log' : List Event)
    (paths : List Text) :
    let out := finish w (o.planFrom w.environment n p) log paths
    let out' := finish w (o.planFrom w.environment n q) log' paths
    out.ending = out'.ending ∧ out.files = out'.files ∧ out.opened = out'.opened ∧
      ∃ shown, out.output = (Conclusion.banner p ++ shown).marked ∧
        out'.output = (Conclusion.banner q ++ shown).marked := by
  intro out out'
  obtain ⟨log₁, last₁, h₁⟩ := finish_eq w (o.planFrom w.environment n p) log paths
  obtain ⟨log₂, last₂, h₂⟩ := finish_eq w (o.planFrom w.environment n q) log' paths
  rw [show out = _ from h₁, show out' = _ from h₂]
  exact ⟨rfl, rfl, rfl, _, rfl, rfl⟩

theorem run_walk (hbefore : Options.parse before = .ok o)
    (hseparator : Token.separatorText ∉ before) (hpaths : o.paths = [])
    (hn : o.workers w.environment = .ok n) (hdir : dir ≠ []) (hdir' : dir ≠ Token.separatorText)
    (hlist : (w.disk.walk dir).result = .ok paths) :
    ∃ log, run w (before ++ [Switch.walk.withValue dir]) =
      finish w (o.planFrom w.environment n (.walk dir)) log paths := by
  have hset : o.set .walk dir = .ok { o with walk := some (.value dir) } := by
    simp only [Options.set, if_neg hdir']
  have hparse := Options.parse_append_withValue hbefore hseparator rfl hset
  have ho := Options.ofCommandLine_eq_ok_iff.mpr ⟨hparse, .inl hpaths⟩
  have hrun := (run_of_provider ho hn (Provider.ofOptions_walk hpaths rfl hdir)).1
  rcases hwalk : w.disk.walk dir with ⟨log, result⟩
  rw [hwalk] at hlist
  obtain rfl : result = .ok paths := hlist
  rw [Provider.list, hwalk] at hrun
  exact ⟨log, hrun⟩

theorem run_named (hbefore : Options.parse before = .ok o)
    (hseparator : Token.separatorText ∉ before) (hpaths : o.paths = []) (hwalk : o.walk = none)
    (hn : o.workers w.environment = .ok n) (hne : paths ≠ []) :
    run w (before ++ Token.separatorText :: paths) =
      finish w (o.planFrom w.environment n (.given paths)) [] paths := by
  have hparse := Options.parse_append_separator hbefore hseparator hpaths paths
  have ho := Options.ofCommandLine_eq_ok_iff.mpr ⟨hparse, .inr (.inl hwalk)⟩
  exact (run_of_provider ho hn (Provider.ofOptions_given hne)).1

/-- **Walking a directory and naming its files agree.**  Put behind an accepted command line with
neither paths nor a directory, a directory to walk and, behind the separator, the files that a walk
of it lists: if there are any, both runs end the same way, leave the same files, open the same files
and show the same, but for the banner. -/
theorem run_walk_eq_run_named (hbefore : Options.parse before = .ok o)
    (hseparator : Token.separatorText ∉ before) (hpaths : o.paths = []) (hwalk : o.walk = none)
    (hn : o.workers w.environment = .ok n) (hdir : dir ≠ []) (hdir' : dir ≠ Token.separatorText)
    (hlist : (w.disk.walk dir).result = .ok paths) (hne : paths ≠ []) :
    let walked := run w (before ++ [Switch.walk.withValue dir])
    let named := run w (before ++ Token.separatorText :: paths)
    walked.ending = named.ending ∧ walked.files = named.files ∧ walked.opened = named.opened ∧
      ∃ shown, walked.output = (Conclusion.banner (.walk dir) ++ shown).marked ∧
        named.output = (Conclusion.banner (.given paths) ++ shown).marked := by
  obtain ⟨log, hwalked⟩ := run_walk hbefore hseparator hpaths hn hdir hdir' hlist
  have hnamed := run_named hbefore hseparator hpaths hwalk hn hne
  rw [hwalked, hnamed]
  exact finish_congr w o n (.walk dir) (.given paths) log [] paths

/-- A directory whose first file is called like a switch and holds an override. -/
def switchNamed : World :=
  { disk := {
      files := {
        root := .dir [([0x2D, 0x76], .file [0xE2, 0x80, 0xAE]), ([0x61, 0x20, 0x3D], .file [0x78]),
          ([0xFF], .file [0x78])]
        working := [] } }
    git := .notStarted .noEntry }

/-- The report takes the place of the first file. -/
theorem run_walk_eq_run_named_switchNamed :
    let before := [Switch.report.withValue (lit "-v"), Switch.jobs.withValue (lit "2")]
    let names := [lit "./-v", lit "./a =", lit "./" ++ Utf8.decodeEscaped [0xFF]]
    let walked := run switchNamed (before ++ [Switch.walk.withValue (lit ".")])
    let named := run switchNamed (before ++ Token.separatorText :: names)
    walked.ending = named.ending ∧ walked.files = named.files ∧ walked.opened = named.opened ∧
      switchNamed.disk.files.read (lit "-v") = .ok [0xE2, 0x80, 0xAE] ∧
      ∃ report : Report, report.paths = [lit "./-v"] ∧
        (walked.files.read (lit "-v")).toOption = Utf8.encode? report.render := by
  have htwo : Numeral.toInt? (lit "2") = some 2 := rfl
  have hbefore : Options.parse
      [Switch.report.withValue (lit "-v"), Switch.jobs.withValue (lit "2")] =
      .ok { report := some (.ofText (lit "-v")), jobs := some (.value 2) } :=
    Options.parse_report_jobs htwo
  have hseparator : Token.separatorText ∉
      [Switch.report.withValue (lit "-v"), Switch.jobs.withValue (lit "2")] := by decide
  have hroot : lit "." ≠ [] ∧ lit "." ≠ Token.separatorText := by decide
  have hlist : (switchNamed.disk.walk (lit ".")).result =
      .ok [lit "./-v", lit "./a =", lit "./" ++ Utf8.decodeEscaped [0xFF]] := by decide +kernel
  obtain ⟨hending, hfiles, hopened, -⟩ := run_walk_eq_run_named hbefore hseparator rfl rfl rfl
    hroot.1 hroot.2 hlist (List.cons_ne_nil _ _)
  refine ⟨hending, hfiles, hopened, by decide +kernel, ?_⟩
  exact ⟨{ files := [(lit "./-v", Finding.all [.ofNat 0x202E])] }, rfl, by decide +kernel⟩

end Gate

end HiddenText
