import HiddenText.Proofs.Gate.Verdict

/-!
# How a run goes

`Course` says what a run can do, in the order in which it is settled: it stops while reading the
command line, has no number of workers, has no list of files, or scans its files.  Only in the last
case it opens files, shows a banner or writes anything (`Outcome.Untouched`).  `EndsBy` names the
errors for which a run is given up before, by what brings them about; they are the errors that end a
run with status 2, or with status 1 and nothing shown.

Main statement: `Gate.untouched_of_endsBy`.
-/

namespace HiddenText

/-! ## Options and plans -/

namespace Given

theorem text?_eq_some_iff {given : Option (Given Text)} {t : Text} :
    text? given = some t ↔ given = some (.value t) ∧ t ≠ [] := by
  cases given with
  | none => simp [text?]
  | some given =>
    cases given with
    | dropped => simp [text?]
    | value s =>
      cases s with
      | nil =>
        simp only [text?, List.isEmpty_nil, if_true, Option.some.injEq, value.injEq]
        exact ⟨nofun, fun h => absurd h.1.symm h.2⟩
      | cons c s =>
        simp only [text?, List.isEmpty_cons, Bool.false_eq_true, if_false, Option.some.injEq,
          value.injEq]
        exact ⟨fun h => ⟨h, h ▸ List.cons_ne_nil c s⟩, And.left⟩

theorem text?_eq_none_iff {given : Option (Given Text)} :
    text? given = none ↔ given = none ∨ given = some (.value []) ∨ given = some .dropped := by
  cases given with
  | none => simp [text?]
  | some given =>
    cases given with
    | dropped => simp [text?]
    | value s => cases s <;> simp [text?]

end Given

namespace Options

variable {arguments : List Text} {o : Options} {env : Environment} {plan : Plan}

/-- No directory is given to walk: there is no such option, or its value is empty or dropped. -/
def NoDirectory (o : Options) : Prop :=
  o.walk = none ∨ o.walk = some (.value []) ∨ o.walk = some .dropped

theorem ofCommandLine_eq_ok_iff : ofCommandLine arguments = .ok o ↔
    parse arguments = .ok o ∧ (o.paths = [] ∨ o.NoDirectory) := by
  rw [ofCommandLine, NoDirectory, ← Given.text?_eq_none_iff]
  cases parse arguments with
  | error stop => simp
  | ok o' =>
    simp only [Except.ok.injEq]
    split
    · next h =>
      rw [Bool.and_eq_true, Bool.not_eq_true', List.isEmpty_eq_false_iff, Option.isSome_iff_ne_none]
        at h
      refine iff_of_false nofun ?_
      rintro ⟨rfl, hnil | hnone⟩
      · exact h.1 hnil
      · exact h.2 hnone
    · next h =>
      rw [Bool.and_eq_true, Bool.not_eq_true', List.isEmpty_eq_false_iff, Option.isSome_iff_ne_none,
        not_and_or, not_not, not_not] at h
      constructor
      · intro heq
        obtain rfl := Except.ok.inj heq
        exact ⟨rfl, h⟩
      · rintro ⟨rfl, -⟩
        rfl

theorem ofCommandLine_eq_error_iff {stop : Stop} : ofCommandLine arguments = .error stop ↔
    parse arguments = .error stop ∨
      stop = .usage .walkWithPaths ∧ ∃ o root, parse arguments = .ok o ∧ o.paths ≠ [] ∧
        o.walk = some (.value root) ∧ root ≠ [] := by
  simp only [← Given.text?_eq_some_iff, ofCommandLine]
  cases parse arguments with
  | error stop' => simp
  | ok o =>
    simp only [Except.ok.injEq, reduceCtorEq, false_or]
    split
    · next h =>
      rw [Bool.and_eq_true, Bool.not_eq_true', List.isEmpty_eq_false_iff,
        Option.isSome_iff_exists] at h
      obtain ⟨hpaths, root, hroot⟩ := h
      constructor
      · intro heq
        exact ⟨(Except.error.inj heq).symm, o, root, rfl, hpaths, hroot⟩
      · rintro ⟨rfl, -⟩
        rfl
    · next h =>
      rw [Bool.and_eq_true, Bool.not_eq_true', List.isEmpty_eq_false_iff,
        Option.isSome_iff_exists] at h
      refine iff_of_false nofun ?_
      rintro ⟨-, o', root, rfl, hpaths, hroot⟩
      exact h ⟨hpaths, root, hroot⟩

/-- Command lines that agree on paths and directories are accepted alike. -/
theorem ofCommandLine_eq_map {f : Options → Options} {more : List Text}
    (h : parse more = (parse arguments).map f) (hpaths : ∀ o, (f o).paths = o.paths)
    (hwalk : ∀ o, (f o).walk = o.walk) : ofCommandLine more = (ofCommandLine arguments).map f := by
  rw [ofCommandLine, ofCommandLine, h]
  cases parse arguments with
  | error stop => rfl
  | ok o =>
    simp only [Except.map, hpaths, hwalk]
    split <;> rfl

theorem workers_eq_settings_iff {e : SettingsError} : o.workers env = .error (.settings e) ↔
    o.jobs = none ∧ env.workers = .error e := by
  rw [workers]
  cases o.jobs with
  | none => cases env.workers <;> simp [Except.mapError]
  | some given =>
    cases given with
    | dropped => simp
    | value n =>
      simp only
      split <;> simp

theorem workers_eq_notPositive_iff : o.workers env = .error .notPositive ↔
    ∃ n, o.jobs = some (.value n) ∧ n < 1 := by
  rw [workers]
  cases o.jobs with
  | none => cases env.workers <;> simp [Except.mapError]
  | some given =>
    cases given with
    | dropped => simp
    | value n =>
      simp only [Option.some.injEq, Given.value.injEq, exists_eq_left']
      split
      · next h => exact iff_of_true rfl h
      · next h => exact iff_of_false (fun heq => by cases heq) h

def planFrom (o : Options) (env : Environment) (n : Int) (p : Provider) : Plan :=
  { provider := p, workers := n, reportPath := o.reportPath env, verbosity := o.verbosity }

theorem plan_eq (o : Options) (env : Environment) :
    o.plan env = (o.workers env).map (o.planFrom env · (.ofOptions o)) := rfl

theorem plan_eq_ok_iff : o.plan env = .ok plan ↔
    ∃ n, o.workers env = .ok n ∧ plan = o.planFrom env n (.ofOptions o) := by
  rw [plan_eq]
  cases o.workers env with
  | error e => simp [Except.map]
  | ok n =>
    simp only [Except.map, Except.ok.injEq, exists_eq_left']
    exact eq_comm

theorem plan_eq_error_iff {e : WorkersError} :
    o.plan env = .error e ↔ o.workers env = .error e := by
  rw [plan_eq]
  cases o.workers env <;> simp [Except.map]

theorem one_le_of_workers {n : Int} (h : o.workers env = .ok n) : 1 ≤ n :=
  one_le_workers (plan_eq_ok_iff.mpr ⟨n, h, rfl⟩)

end Options

namespace Provider

variable {o : Options}

theorem ofOptions_given (h : o.paths ≠ []) : ofOptions o = .given o.paths := by
  rw [ofOptions, if_neg (by rwa [List.isEmpty_iff])]

theorem ofOptions_walk {root : Text} (hpaths : o.paths = []) (hwalk : o.walk = some (.value root))
    (hroot : root ≠ []) : ofOptions o = .walk root := by
  rw [ofOptions, if_pos (by rw [hpaths]; rfl), Given.text?_eq_some_iff.mpr ⟨hwalk, hroot⟩]

theorem ofOptions_git (hpaths : o.paths = []) (h : o.NoDirectory) : ofOptions o = .git := by
  rw [ofOptions, if_pos (by rw [hpaths]; rfl), Given.text?_eq_none_iff.mpr h]

theorem ofOptions_eq_git_iff : ofOptions o = .git ↔ o.paths = [] ∧ o.NoDirectory := by
  constructor
  · intro h
    rw [ofOptions] at h
    split at h
    · next hpaths =>
      refine ⟨List.isEmpty_iff.mp hpaths, Given.text?_eq_none_iff.mp ?_⟩
      split at h
      · cases h
      · assumption
    · cases h
  · rintro ⟨hpaths, h⟩
    exact ofOptions_git hpaths h

theorem gitStarts_ne_zero_iff (p : Provider) : p.gitStarts ≠ 0 ↔ p = .git := by
  cases p <;> simp [gitStarts]

end Provider

/-! ## Courses -/

/-- An outcome before which nothing was shown, opened or written. -/
structure Outcome.Untouched (w : World) (out : Outcome) : Prop where
  files : out.files = w.disk.files
  output : out.output = []
  opened : out.opened = []

namespace Gate

variable {w : World} {arguments : List Text} {o : Options} {plan : Plan} {out : Outcome}

/-- What a run without a list of files comes to. -/
def unlisted (w : World) (plan : Plan) (log : List Event) (e : WalkError) : Outcome :=
  { Conclusion.ofWalkError plan.verbosity log e with
    files := w.disk.files, gitStarts := plan.provider.gitStarts }

/-- How a run goes on with what came of listing its files. -/
def proceed (w : World) (plan : Plan) : Logged (Except WalkError (List Text)) → Outcome
  | ⟨log, .ok paths⟩ => finish w plan log paths
  | ⟨log, .error e⟩ => unlisted w plan log e

theorem carryOut_eq (w : World) (plan : Plan) :
    carryOut w plan = proceed w plan (plan.provider.list w.disk w.git) := by
  rw [carryOut]
  rcases plan.provider.list w.disk w.git with ⟨log, e | paths⟩ <;> rfl

theorem run_eq_proceed {n : Int} (ho : Options.ofCommandLine arguments = .ok o)
    (hn : o.workers w.environment = .ok n) :
    run w arguments = proceed w (o.planFrom w.environment n (.ofOptions o))
      ((Provider.ofOptions o).list w.disk w.git) := by
  rw [run_of_plan ho (Options.plan_eq_ok_iff.mpr ⟨n, hn, rfl⟩), carryOut_eq]
  rfl

/-- Everything that a run can do. -/
inductive Course (w : World) (arguments : List Text) : Outcome → Prop
  | stopped {stop : Stop} (h : Options.ofCommandLine arguments = .error stop) :
      Course w arguments { Conclusion.ofStop stop with files := w.disk.files }
  | withoutWorkers {o : Options} {e : WorkersError} (ho : Options.ofCommandLine arguments = .ok o)
      (h : o.workers w.environment = .error e) :
      Course w arguments { Conclusion.ofWorkersError e with files := w.disk.files }
  | withoutFiles {o : Options} {n : Int} {log : List Event} {e : WalkError}
      (ho : Options.ofCommandLine arguments = .ok o) (hn : o.workers w.environment = .ok n)
      (h : (Provider.ofOptions o).list w.disk w.git = ⟨log, .error e⟩) :
      Course w arguments (unlisted w (o.planFrom w.environment n (.ofOptions o)) log e)
  | scanned {o : Options} {n : Int} {log : List Event} {paths : List Text}
      (ho : Options.ofCommandLine arguments = .ok o) (hn : o.workers w.environment = .ok n)
      (h : (Provider.ofOptions o).list w.disk w.git = ⟨log, .ok paths⟩) :
      Course w arguments (finish w (o.planFrom w.environment n (.ofOptions o)) log paths)

theorem course_run (w : World) (arguments : List Text) : Course w arguments (run w arguments) := by
  cases ho : Options.ofCommandLine arguments with
  | error stop =>
    rw [run, ho]
    exact .stopped ho
  | ok o =>
    cases hn : o.workers w.environment with
    | error e =>
      rw [run, ho]
      simp only [Options.plan_eq_error_iff.mpr hn]
      exact .withoutWorkers ho hn
    | ok n =>
      rw [run_eq_proceed ho hn]
      rcases h : (Provider.ofOptions o).list w.disk w.git with ⟨log, e | paths⟩
      · exact .withoutFiles ho hn h
      · exact .scanned ho hn h

theorem Course.eq_run (h : Course w arguments out) : run w arguments = out := by
  cases h with
  | stopped h => rw [run, h]
  | withoutWorkers ho h =>
    rw [run, ho]
    simp only [Options.plan_eq_error_iff.mpr h]
  | withoutFiles ho hn h =>
    rw [run_eq_proceed ho hn, h]
    rfl
  | scanned ho hn h =>
    rw [run_eq_proceed ho hn, h]
    rfl

/-! ## From the list of files on -/

/-- What the files of a run come to: how it ends, what it shows after the banner, and the files that
it leaves. -/
structure Upshot where
  ending : Ending
  shown : Text
  files : FileSystem

/-- Neither the provider of the list nor what is logged has a part in the upshot. -/
def upshot (w : World) (workers : Int) (reportPath : Text) (paths : List Text) : Upshot :=
  match (Scan.run workers w.disk.scan paths).result with
  | .error b => ⟨.failed (.badText b), [], w.disk.files⟩
  | .ok report =>
    let emitted := report.emit w.disk reportPath
    match emitted.outcome with
    | .ok status => ⟨.status status, emitted.shown, emitted.files⟩
    | .error (.access (.system _)) => ⟨.status 1, [], emitted.files⟩
    | .error (.access (.badText b)) => ⟨.failed (.badText b), [], emitted.files⟩
    | .error .tooDeep => ⟨.failed .tooDeep, [], emitted.files⟩
    | .error .tooManyDigits => ⟨.failed .tooManyDigits, [], emitted.files⟩

section

variable (w : World) (plan : Plan) (log : List Event) (paths : List Text)

theorem finish_eq : ∃ log' last, finish w plan log paths =
    { Conclusion.afterBanner plan log' (upshot w plan.workers plan.reportPath paths).ending
        (upshot w plan.workers plan.reportPath paths).shown last with
      files := (upshot w plan.workers plan.reportPath paths).files
      gitStarts := plan.provider.gitStarts
      opened := Scan.opened plan.workers w.disk.scan paths } := by
  rw [finish, upshot]
  rcases Scan.run plan.workers w.disk.scan paths with ⟨scanLog, b | report⟩
  · exact ⟨_, _, rfl⟩
  · simp only
    rcases report.emit w.disk plan.reportPath with ⟨files, writeLog, shown, e | status⟩
    · rcases e with (e | b) | _ | _ <;> exact ⟨_, _, rfl⟩
    · exact ⟨_, _, rfl⟩

theorem ending_finish_ne_usage (n : Nat) : (finish w plan log paths).ending ≠ .usage n := by
  obtain ⟨log', last, hfinish⟩ := finish_eq w plan log paths
  have hending : (finish w plan log paths).ending =
      (upshot w plan.workers plan.reportPath paths).ending := by rw [hfinish]; rfl
  rw [hending, upshot]
  split
  · nofun
  · simp only
    split <;> nofun

/-- A run that got to the scan has shown its banner. -/
theorem output_finish_ne_nil : (finish w plan log paths).output ≠ [] := by
  obtain ⟨log', last, hfinish⟩ := finish_eq w plan log paths
  rw [hfinish]
  exact List.cons_ne_nil _ _

theorem gitStarts_finish : (finish w plan log paths).gitStarts = plan.provider.gitStarts := by
  obtain ⟨log', last, hfinish⟩ := finish_eq w plan log paths
  rw [hfinish]

end

/-! ## Starting git -/

/-- The command line asks for tracked files, and the number of workers is accepted. -/
def ReachesGit (env : Environment) (arguments : List Text) : Prop :=
  ∃ o n, Options.parse arguments = .ok o ∧ o.paths = [] ∧ o.NoDirectory ∧
    o.workers env = .ok n ∧ 1 ≤ n

theorem gitStarts_run_ne_zero_iff :
    (run w arguments).gitStarts ≠ 0 ↔ ReachesGit w.environment arguments := by
  have hreaches {o : Options} {n : Int} (ho : Options.ofCommandLine arguments = .ok o)
      (hn : o.workers w.environment = .ok n) :
      (Provider.ofOptions o).gitStarts ≠ 0 ↔
        ReachesGit w.environment arguments := by
    have hparse := (Options.ofCommandLine_eq_ok_iff.mp ho).1
    rw [Provider.gitStarts_ne_zero_iff, Provider.ofOptions_eq_git_iff]
    constructor
    · rintro ⟨hpaths, hwalk⟩
      exact ⟨o, n, hparse, hpaths, hwalk, hn, Options.one_le_of_workers hn⟩
    · rintro ⟨o', n', hparse', hpaths, hwalk, -⟩
      rw [hparse] at hparse'
      obtain rfl := Except.ok.inj hparse'
      exact ⟨hpaths, hwalk⟩
  have hcourse := course_run w arguments
  generalize run w arguments = out at hcourse
  cases hcourse with
  | stopped h =>
    refine iff_of_false (fun hne => hne rfl) ?_
    rintro ⟨o, n, hparse, hpaths, -⟩
    rw [Options.ofCommandLine_eq_ok_iff.mpr ⟨hparse, .inl hpaths⟩] at h
    cases h
  | withoutWorkers ho h =>
    refine iff_of_false (fun hne => hne rfl) ?_
    rintro ⟨o, n, hparse, hpaths, -, hn, -⟩
    rw [Options.ofCommandLine_eq_ok_iff.mpr ⟨hparse, .inl hpaths⟩] at ho
    obtain rfl := Except.ok.inj ho
    rw [hn] at h
    cases h
  | withoutFiles ho hn h => exact hreaches ho hn
  | scanned ho hn h =>
    rw [gitStarts_finish]
    exact hreaches ho hn

/-! ## Fatal errors -/

/-- An error for which a run is given up before anything is scanned. -/
inductive FatalError
  | usage (e : UsageError)
  | settings (e : SettingsError)
  /-- Less than one worker is asked for on the command line. -/
  | notPositive
  | listing (e : ListingError)

def FatalError.ending : FatalError → Ending
  | .usage _ => .usage 2
  | .settings _ | .notPositive | .listing _ => .status 1

/-- The error for which a run is given up. -/
inductive EndsBy (w : World) (arguments : List Text) : FatalError → Prop
  | usage {e : UsageError} (h : Options.parse arguments = .error (.usage e)) :
      EndsBy w arguments (.usage e)
  | walkWithPaths {o : Options} {root : Text} (h : Options.parse arguments = .ok o)
      (hpaths : o.paths ≠ []) (hwalk : o.walk = some (.value root)) (hroot : root ≠ []) :
      EndsBy w arguments (.usage .walkWithPaths)
  | settings {o : Options} {e : SettingsError} (ho : Options.ofCommandLine arguments = .ok o)
      (hjobs : o.jobs = none) (h : w.environment.workers = .error e) :
      EndsBy w arguments (.settings e)
  | notPositive {o : Options} {n : Int} (ho : Options.ofCommandLine arguments = .ok o)
      (hjobs : o.jobs = some (.value n)) (hn : n < 1) : EndsBy w arguments .notPositive
  | listing {o : Options} {n : Int} {e : ListingError}
      (ho : Options.ofCommandLine arguments = .ok o) (hn : o.workers w.environment = .ok n)
      (h : ((Provider.ofOptions o).list w.disk w.git).result = .error (.listing e)) :
      EndsBy w arguments (.listing e)

/-- A run that is given up leaves everything as it was. -/
theorem EndsBy.untouched {e : FatalError} (h : EndsBy w arguments e) :
    (run w arguments).Untouched w ∧ (run w arguments).ending = e.ending := by
  have hcourse {out : Outcome} (h : Course w arguments out) {ending : Ending}
      (hout : out.Untouched w ∧ out.ending = ending) :
      (run w arguments).Untouched w ∧ (run w arguments).ending = ending := by
    rwa [h.eq_run]
  cases h with
  | usage h =>
    exact hcourse (.stopped (Options.ofCommandLine_eq_error_iff.mpr (.inl h)))
      ⟨⟨rfl, rfl, rfl⟩, rfl⟩
  | walkWithPaths h hpaths hwalk hroot =>
    have hconflict := Options.ofCommandLine_eq_error_iff.mpr
      (.inr ⟨rfl, _, _, h, hpaths, hwalk, hroot⟩)
    exact hcourse (.stopped hconflict) ⟨⟨rfl, rfl, rfl⟩, rfl⟩
  | settings ho hjobs h =>
    exact hcourse (.withoutWorkers ho (Options.workers_eq_settings_iff.mpr ⟨hjobs, h⟩))
      ⟨⟨rfl, rfl, rfl⟩, rfl⟩
  | notPositive ho hjobs hn =>
    exact hcourse (.withoutWorkers ho (Options.workers_eq_notPositive_iff.mpr ⟨_, hjobs, hn⟩))
      ⟨⟨rfl, rfl, rfl⟩, rfl⟩
  | @listing o n e ho hn h =>
    rcases hlist : (Provider.ofOptions o).list w.disk w.git with ⟨log, result⟩
    rw [hlist] at h
    obtain rfl : result = .error (.listing e) := h
    exact hcourse (.withoutFiles ho hn hlist) ⟨⟨rfl, rfl, rfl⟩, rfl⟩

/-- A run that ends with status 2, or with status 1 and shows nothing, is one that is given up. -/
theorem exists_endsBy (h : (run w arguments).ending = .usage 2 ∨
    (run w arguments).ending = .status 1 ∧ (run w arguments).output = []) :
    ∃ e, EndsBy w arguments e := by
  have hcourse := course_run w arguments
  generalize run w arguments = out at h hcourse
  cases hcourse with
  | @stopped stop hstop =>
    cases stop with
    | help =>
      rcases h with h | ⟨h, -⟩
      · cases h
      · cases h
    | usage e =>
      rcases Options.ofCommandLine_eq_error_iff.mp hstop with hparse |
        ⟨-, o, root, hparse, hpaths, hwalk, hroot⟩
      · exact ⟨_, .usage hparse⟩
      · exact ⟨_, .walkWithPaths hparse hpaths hwalk hroot⟩
  | @withoutWorkers o e ho he =>
    cases e with
    | settings e =>
      obtain ⟨hjobs, he⟩ := Options.workers_eq_settings_iff.mp he
      exact ⟨_, .settings ho hjobs he⟩
    | notPositive =>
      obtain ⟨n, hjobs, hn⟩ := Options.workers_eq_notPositive_iff.mp he
      exact ⟨_, .notPositive ho hjobs hn⟩
    | withoutValue =>
      rcases h with h | ⟨h, -⟩
      · cases h
      · cases h
  | @withoutFiles o n log e ho hn hlist =>
    cases e with
    | listing e => exact ⟨_, .listing ho hn (by rw [hlist])⟩
    | link _ | tooDeep =>
      rcases h with h | ⟨h, -⟩
      · cases h
      · cases h
  | @scanned o n log paths ho hn hlist =>
    rcases h with h | ⟨-, h⟩
    · exact absurd h (ending_finish_ne_usage w _ log paths 2)
    · exact absurd h (output_finish_ne_nil w _ log paths)

/-- **A fatal error leaves the world untouched.**  A run that is given up for a usage error, bad
settings, less than one worker or a failed listing leaves the files as they were, shows nothing on
its output and has opened no file; it ends with status 2 for a usage error and with 1 otherwise.
There are no other runs that end with status 2, or with status 1 and nothing shown.  Any run starts
git just in case neither paths nor a directory are given and the number of workers is accepted. -/
theorem untouched_of_endsBy (w : World) (arguments : List Text) :
    (∀ e, EndsBy w arguments e →
      (run w arguments).files = w.disk.files ∧ (run w arguments).output = [] ∧
        (run w arguments).opened = [] ∧ (run w arguments).ending = e.ending) ∧
    ((run w arguments).ending = .usage 2 ∨
        (run w arguments).ending = .status 1 ∧ (run w arguments).output = [] →
      ∃ e, EndsBy w arguments e) ∧
    ((run w arguments).gitStarts ≠ 0 ↔ ReachesGit w.environment arguments) := by
  refine ⟨?_, exists_endsBy, gitStarts_run_ne_zero_iff⟩
  intro e h
  obtain ⟨huntouched, hending⟩ := h.untouched
  exact ⟨huntouched.files, huntouched.output, huntouched.opened, hending⟩

/-- A directory with one file, in which git fails. -/
def untracked : World :=
  { disk := { files := { root := .dir [([0x61], .file [0x78])], working := [] } }
    git := .finished [] [0x6E, 0x6F] 128 }

theorem untouched_of_endsBy_untracked :
    EndsBy untracked [] (.listing (.gitFailed (lit "no") 128 none)) ∧
      (run untracked []).ending = .status 1 ∧ (run untracked []).output = [] ∧
      EndsBy untracked [lit "a", lit "--walk", lit "."] (.usage .walkWithPaths) ∧
      (run untracked [lit "a", lit "--walk", lit "."]).ending = .usage 2 ∧
      ReachesGit untracked.environment [] := by
  have hlisting : EndsBy untracked [] (.listing (.gitFailed (lit "no") 128 none)) :=
    .listing rfl rfl (by decide +kernel)
  have husage : EndsBy untracked [lit "a", lit "--walk", lit "."] (.usage .walkWithPaths) :=
    .walkWithPaths rfl nofun rfl nofun
  obtain ⟨-, houtput, -, hending⟩ := (untouched_of_endsBy untracked []).1 _ hlisting
  obtain ⟨-, -, -, husageEnding⟩ := (untouched_of_endsBy untracked _).1 _ husage
  have hgit := (untouched_of_endsBy untracked []).2.2.mp (by decide +kernel)
  exact ⟨hlisting, hending, houtput, husage, husageEnding, hgit⟩

end Gate

end HiddenText
