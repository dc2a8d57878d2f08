import HiddenText.Proofs.CommandLine.Inserted
import HiddenText.Proofs.Gate.Courses
import HiddenText.Proofs.Settings.Workers

/-!
# The number of workers from either place

A number of workers can be passed on the command line or set in the environment.  A command line
with the number put into it asks for the same as without it in everything else
(`Options.Gap.ofCommandLine_jobs`), so the two runs carry out the same plan if both places accept
the number.  They do not always: a setting is read without the blanks at its ends, which may be more
than the white space around a numeral.

Main statement: `Gate.run_jobs_or_set`.
-/

namespace HiddenText

def World.setting (w : World) (key value : Text) : World :=
  { w with environment := (key, value) :: w.environment }

namespace Options

open Settings

variable {before after : List Text} {o : Options} {env : Environment} {s : Text} {n : Int}

theorem Gap.ofCommandLine_jobs (h : Gap before after o) (hjobs : o.jobs = none)
    (hn : Numeral.toInt? s = some n) :
    ofCommandLine (before ++ Switch.jobs.withValue s :: after) =
      (ofCommandLine (before ++ after)).map (orJobs n) :=
  ofCommandLine_eq_map (h.parse_jobs hjobs hn) (fun _ => rfl) fun _ => rfl

theorem Gap.exists_ofCommandLine_jobs_eq_error (h : Gap before after o)
    (hs : s ≠ Token.separatorText) (hn : Numeral.toInt? s = none) :
    ∃ e, ofCommandLine (before ++ Switch.jobs.withValue s :: after) = .error (.usage e) := by
  obtain ⟨e, he⟩ := h.exists_parse_jobs_eq_error hs hn
  exact ⟨e, ofCommandLine_eq_error_iff.mpr (.inl he)⟩

theorem jobs_of_ofCommandLine {arguments : List Text}
    (hnone : ∀ o, parse arguments = .ok o → o.jobs = none) (h : ofCommandLine arguments = .ok o) :
    o.jobs = none :=
  hnone o (ofCommandLine_eq_ok_iff.mp h).1

theorem stripped_cons_workersVariable (env : Environment) (s : Text) :
    Environment.stripped ((workersVariable, s) :: env) workersVariable = s.strip := by
  rw [Environment.stripped, List.lookup_cons_self, Option.getD_some]

theorem reportPath_cons_workersVariable (o : Options) (env : Environment) (s : Text) :
    o.reportPath ((workersVariable, s) :: env) = o.reportPath env := by
  have hne : (reportVariable == workersVariable) = false := by decide
  rw [reportPath, reportPath, Environment.reportPath, Environment.reportPath, Environment.stripped,
    Environment.stripped, List.lookup_cons, hne]

/-- The same plan, with the number passed. -/
theorem plan_orJobs (hjobs : o.jobs = none) (hn : 1 ≤ n) (env : Environment) :
    (o.orJobs n).plan env = .ok (o.planFrom env n (.ofOptions o)) := by
  have hworkers : (o.orJobs n).workers env = .ok n := by
    rw [workers, orJobs, hjobs]
    exact if_neg (by omega)
  exact plan_eq_ok_iff.mpr ⟨n, hworkers, rfl⟩

theorem workers_orJobs_eq_notPositive (hjobs : o.jobs = none) (hn : n < 1) (env : Environment) :
    (o.orJobs n).workers env = .error .notPositive := by
  rw [workers_eq_notPositive_iff]
  exact ⟨n, by rw [orJobs, hjobs]; rfl, hn⟩

/-- The same plan, with the number set, or the setting is refused. -/
theorem plan_cons_workersVariable (hjobs : o.jobs = none) (hs : s.strip ≠ []) (env : Environment) :
    (∃ n, Numeral.Denotes s.strip n ∧ 1 ≤ n ∧
      o.plan ((workersVariable, s) :: env) = .ok (o.planFrom env n (.ofOptions o))) ∨
    (∀ n, Numeral.Denotes s.strip n → n < 1) ∧
      ∃ e, o.workers ((workersVariable, s) :: env) = .error (.settings e) := by
  have hcases := Environment.workers_cases ((workersVariable, s) :: env)
  rw [stripped_cons_workersVariable] at hcases
  obtain ⟨hnil, -⟩ | ⟨n, hdenotes, hn, hworkers⟩ | ⟨-, hall, hworkers⟩ := hcases
  · exact absurd hnil hs
  · refine .inl ⟨n, hdenotes, hn, plan_eq_ok_iff.mpr ⟨n, ?_, ?_⟩⟩
    · rw [workers, hjobs, hworkers]
      rfl
    · rw [planFrom, planFrom, reportPath_cons_workersVariable]
  · exact .inr ⟨hall, _, workers_eq_settings_iff.mpr ⟨hjobs, hworkers⟩⟩

end Options

/-- An outcome of a run that is refused before anything is listed. -/
structure Outcome.Refused (w : World) (out : Outcome) : Prop extends out.Untouched w where
  gitStarts : out.gitStarts = 0
  ending : out.ending = .usage 2 ∨ out.ending = .status 1

theorem Outcome.Refused.ending_ne {w : World} {out : Outcome} (h : out.Refused w) :
    out.ending ≠ .status 0 := by
  rcases h.ending with h | h <;> rw [h] <;> nofun

/-- A setting is no part of what a refused run leaves alone. -/
theorem Outcome.Refused.of_setting {w : World} {key value : Text} {out : Outcome}
    (h : out.Refused (w.setting key value)) : out.Refused w :=
  ⟨⟨h.files, h.output, h.opened⟩, h.gitStarts, h.ending⟩

namespace Gate

open Settings

variable {w : World} {arguments before after : List Text} {o o' : Options} {s : Text} {n : Int}

theorem refused_of_usage {e : UsageError} (h : Options.ofCommandLine arguments = .error (.usage e)) :
    (run w arguments).Refused w ∧ (run w arguments).ending = .usage 2 := by
  rw [(Course.stopped (w := w) h).eq_run]
  exact ⟨⟨⟨rfl, rfl, rfl⟩, rfl, .inl rfl⟩, rfl⟩

theorem refused_of_workers {e : WorkersError} (ho : Options.ofCommandLine arguments = .ok o)
    (h : o.workers w.environment = .error e) (he : e ≠ .withoutValue) :
    (run w arguments).Refused w := by
  rw [(Course.withoutWorkers ho h).eq_run]
  cases e with
  | settings e => exact ⟨⟨rfl, rfl, rfl⟩, rfl, .inr rfl⟩
  | notPositive => exact ⟨⟨rfl, rfl, rfl⟩, rfl, .inr rfl⟩
  | withoutValue => exact absurd rfl he

/-- A plan has all that a run needs to know of the settings. -/
theorem carryOut_setting (w : World) (key value : Text) (plan : Plan) :
    carryOut (w.setting key value) plan = carryOut w plan := rfl

/-! ## Either place -/

theorem run_passed_of_none (w : World) (hgap : Options.Gap before after o)
    (hs : s ≠ Token.separatorText) (hn : Numeral.toInt? s = none) :
    let passed := run w (before ++ Switch.jobs.withValue s :: after)
    passed.Refused w ∧ passed.ending = .usage 2 := by
  obtain ⟨e, he⟩ := hgap.exists_ofCommandLine_jobs_eq_error hs hn
  exact refused_of_usage he

/-- A number that is passed is the number of workers, if it is one. -/
theorem run_passed_of_some (w : World) (hgap : Options.Gap before after o) (hjobs : o.jobs = none)
    (ho : Options.ofCommandLine (before ++ after) = .ok o') (hjobs' : o'.jobs = none)
    (hn : Numeral.toInt? s = some n) :
    let passed := run w (before ++ Switch.jobs.withValue s :: after)
    (1 ≤ n → passed = carryOut w (o'.planFrom w.environment n (.ofOptions o'))) ∧
      (n < 1 → passed.Refused w) := by
  have hsame : Options.ofCommandLine (before ++ Switch.jobs.withValue s :: after) =
      .ok (o'.orJobs n) := by
    rw [hgap.ofCommandLine_jobs hjobs hn, ho]
    rfl
  constructor
  · intro hpos
    exact run_of_plan hsame (Options.plan_orJobs hjobs' hpos w.environment)
  · intro hneg
    have hworkers := Options.workers_orJobs_eq_notPositive hjobs' hneg w.environment
    exact refused_of_workers hsame hworkers (by simp)

/-- A number that is set is the number of workers, if it is one. -/
theorem run_preset (w : World) (ho : Options.ofCommandLine arguments = .ok o)
    (hjobs : o.jobs = none) (hs : s.strip ≠ []) :
    let preset := run (w.setting workersVariable s) arguments
    (∃ n, Numeral.Denotes s.strip n ∧ 1 ≤ n ∧
      preset = carryOut w (o.planFrom w.environment n (.ofOptions o))) ∨
    (∀ n, Numeral.Denotes s.strip n → n < 1) ∧ preset.Refused w := by
  have hset := Options.plan_cons_workersVariable hjobs hs w.environment
  have henvironment : (w.setting workersVariable s).environment =
      (workersVariable, s) :: w.environment := rfl
  rw [← henvironment] at hset
  obtain ⟨n, hdenotes, hpos, hplan⟩ | ⟨hall, e, he⟩ := hset
  · exact .inl ⟨n, hdenotes, hpos, (run_of_plan ho hplan).trans (carryOut_setting w _ _ _)⟩
  · exact .inr ⟨hall, (refused_of_workers ho he (by simp)).of_setting⟩

/-- **A number of workers counts the same from either place, but for four separators.**  Take a
command line that asks neither for help nor for a number of workers, and a text that is not blank
altogether and not the separator of command lines.  Pass the text as a number of workers, anywhere
in the command line where there is room for an option; or set it in the environment.  Both runs
carry out the same plan, with the number that the text denotes between its blanks, and come to the
same; or both are refused before anything is listed, and that only if there is no such number or the
command line is wrong by itself.  There is one way for them to differ: a separator that is no white
space stands in front of the number or behind it, for which the option is refused, while the setting
is read. -/
theorem run_jobs_or_set (hgap : Options.Gap before after o) (hjobs : o.jobs = none)
    (hnone : ∀ o', Options.parse (before ++ after) = .ok o' → o'.jobs = none)
    (hhelp : Options.parse (before ++ after) ≠ .error .help)
    (hblank : s.isBlank = false) (hs : s ≠ Token.separatorText) :
    let passed := run w (before ++ Switch.jobs.withValue s :: after)
    let preset := run (w.setting workersVariable s) (before ++ after)
    -- both go on
    (∃ plan, Numeral.Denotes s.strip plan.workers ∧ 1 ≤ plan.workers ∧
      passed = carryOut w plan ∧ preset = passed) ∨
    -- both are refused
    (passed.Refused w ∧ preset.Refused w ∧
      ((∀ n, Numeral.Denotes s.strip n → n < 1) ∨
        ∃ e, Options.ofCommandLine (before ++ after) = .error (.usage e))) ∨
    -- the option is refused, and the setting is not
    ∃ plan front back, Numeral.Denotes s.strip plan.workers ∧ 1 ≤ plan.workers ∧
      s = front ++ s.strip ++ back ∧ (∃ c ∈ front ++ back, c.isSeparator) ∧
      passed.Refused w ∧ passed.ending = .usage 2 ∧ preset = carryOut w plan := by
  intro passed preset
  have hstrip : s.strip ≠ [] := by
    intro hnil
    rw [Text.isBlank, List.all_eq_true.mpr (Text.trim_eq_nil_iff.mp hnil)] at hblank
    cases hblank
  cases ho : Options.ofCommandLine (before ++ after) with
  | error stop =>
    -- the command line is wrong by itself, whatever the number
    cases stop with
    | help =>
      rcases Options.ofCommandLine_eq_error_iff.mp ho with hparse | ⟨hstop, -⟩
      · exact absurd hparse hhelp
      · cases hstop
    | usage e =>
      have hpreset : preset.Refused w := (refused_of_usage ho).1.of_setting
      have hpassed : passed.Refused w := by
        cases hn : Numeral.toInt? s with
        | none => exact (run_passed_of_none w hgap hs hn).1
        | some n =>
          have hsame := hgap.ofCommandLine_jobs hjobs hn
          rw [ho] at hsame
          exact (refused_of_usage hsame).1
      exact .inr (.inl ⟨hpassed, hpreset, .inr ⟨e, rfl⟩⟩)
  | ok o' =>
    have hjobs' := Options.jobs_of_ofCommandLine hnone ho
    have hpreset := run_preset w ho hjobs' hstrip
    cases hn : Numeral.toInt? s with
    | none =>
      obtain ⟨hpassed, hending⟩ := run_passed_of_none w hgap hs hn
      obtain ⟨n, hdenotes, hpos, hrun⟩ | ⟨hall, hrefused⟩ := hpreset
      · obtain ⟨front, back, hparts, hseparator⟩ := Numeral.exists_separator hdenotes hn
        exact .inr (.inr ⟨_, front, back, hdenotes, hpos, hparts, hseparator, hpassed, hending,
          hrun⟩)
      · exact .inr (.inl ⟨hpassed, hrefused, .inl hall⟩)
    | some n =>
      have hdenotes := Numeral.denotes_strip_of_toInt? hn
      obtain ⟨hgoes, hstops⟩ := run_passed_of_some w hgap hjobs ho hjobs' hn
      obtain ⟨m, hdenotes', hpos, hrun⟩ | ⟨hall, hrefused⟩ := hpreset
      · obtain rfl : m = n := hdenotes'.unique hdenotes
        exact .inl ⟨_, hdenotes, hpos, hgoes hpos, hrun.trans (hgoes hpos).symm⟩
      · exact .inr (.inl ⟨hstops (hall n hdenotes), hrefused, .inl hall⟩)

/-- What is behind the number in `run_jobs_or_set_oneFile`. -/
def reportArgument : Text := Switch.report.withValue (lit "r")

/-- A number with a sign, a zero, an underscore and white space around it. -/
theorem run_jobs_or_set_oneFile :
    (run oneFile ([lit "a"] ++ Switch.jobs.withValue (lit " +0_2\n") :: [reportArgument])).ending =
        .status 0 ∧
      run (oneFile.setting workersVariable (lit " +0_2\n")) ([lit "a"] ++ [reportArgument]) =
        run oneFile ([lit "a"] ++ Switch.jobs.withValue (lit " +0_2\n") :: [reportArgument]) := by
  have hending : (run oneFile ([lit "a"] ++ Switch.jobs.withValue (lit " +0_2\n") ::
      [reportArgument])).ending = .status 0 := by decide +kernel
  have hpath : Options.parse [lit "a"] = .ok { paths := [lit "a"] } := rfl
  have hgap : Options.Gap [lit "a"] [reportArgument] { paths := [lit "a"] } := by
    refine ⟨hpath, by decide, ?_⟩
    rintro - t ht
    obtain rfl := Option.some.inj ht
    exact Token.not_isPlain_withValue _ _
  have hparse : Options.parse ([lit "a"] ++ [reportArgument]) =
      .ok { paths := [lit "a"], report := some (.value (lit "r")) } :=
    Options.parse_append_withValue hpath (by decide) rfl rfl
  have hnone : ∀ o, Options.parse ([lit "a"] ++ [reportArgument]) = .ok o → o.jobs = none := by
    intro o ho
    rw [hparse] at ho
    rw [← Except.ok.inj ho]
  have hhelp : Options.parse ([lit "a"] ++ [reportArgument]) ≠ .error .help := by
    rw [hparse]
    nofun
  have htext : (lit " +0_2\n").isBlank = false ∧ lit " +0_2\n" ≠ Token.separatorText := by decide
  have hruns := @run_jobs_or_set oneFile [lit "a"] [reportArgument] { paths := [lit "a"] }
    (lit " +0_2\n") hgap rfl hnone hhelp htext.1 htext.2
  refine ⟨hending, ?_⟩
  rcases hruns with hboth | hneither | hone
  · obtain ⟨plan, -, -, -, hsame⟩ := hboth
    exact hsame
  · exact absurd hending hneither.1.ending_ne
  · obtain ⟨plan, front, back, -, -, -, -, hrefused, -⟩ := hone
    exact absurd hending hrefused.ending_ne

/-- A separator in front of a number: the option is refused, and the setting is read.  A text that is
no number: the option is refused before help is shown, and the setting is not read at all. -/
theorem run_jobs_or_set_separator :
    ((lit "\x1C5").isBlank = false ∧
      (run oneFile [Switch.jobs.withValue (lit "\x1C5"), lit "a", lit "--report=r"]).ending =
        .usage 2 ∧
      (run (oneFile.setting workersVariable (lit "\x1C5")) [lit "a", lit "--report=r"]).ending =
        .status 0 ∧
      (run (oneFile.setting workersVariable (lit "\x1C5")) [lit "a", lit "--report=r"]).opened =
        [lit "a"]) ∧
    (run oneFile [Switch.jobs.withValue (lit "x"), lit "--help"]).ending = .usage 2 ∧
      (run (oneFile.setting workersVariable (lit "x")) [lit "--help"]).ending = .usage 0 := by
  decide +kernel

end Gate

end HiddenText
