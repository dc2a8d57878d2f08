import HiddenText.Proofs.CommandLine.Accepted
import HiddenText.Proofs.Gate.Courses
import HiddenText.Proofs.Listing.Reach

/-!
# Where the files of a run come from

A directory together with paths is a usage error.  Otherwise the files are those below the directory
if one is given, or else the paths that are given, or else, and only then, the files that git
tracks.  A directory without a name counts as none, here as well as beside paths.

Main statement: `Gate.provider_of_options`.
-/

namespace HiddenText

theorem Disk.walk_eq_of_listing_error {d : Disk} {root : Text} {e : ListingError}
    (h : (d.walk root).result = .error (.listing e)) : d.walk root = ⟨[], .error (.listing e)⟩ := by
  have hdir : ¬d.files.isDirectory root := by
    intro hdir
    obtain ⟨e', he, -⟩ | ⟨he, -⟩ := meetsBadLink_of_walk hdir h
    · cases he
    · cases he
  have hwalk := walk_of_not_isDirectory hdir
  rw [hwalk] at h ⊢
  rw [← h]

namespace Gate

variable {w : World} {arguments : List Text} {o : Options} {plan : Plan} {n : Int}

theorem gitStarts_proceed (w : World) (plan : Plan)
    (listing : Logged (Except WalkError (List Text))) :
    (proceed w plan listing).gitStarts = plan.provider.gitStarts := by
  match listing with
  | ⟨log, .ok paths⟩ => exact gitStarts_finish w plan log paths
  | ⟨log, .error e⟩ => rfl

theorem run_of_provider {p : Provider} (ho : Options.ofCommandLine arguments = .ok o)
    (hn : o.workers w.environment = .ok n) (hp : Provider.ofOptions o = p) :
    run w arguments = proceed w (o.planFrom w.environment n p) (p.list w.disk w.git) ∧
      (run w arguments).gitStarts = p.gitStarts := by
  subst hp
  have hrun := run_eq_proceed ho hn
  refine ⟨hrun, ?_⟩
  rw [hrun, gitStarts_proceed]
  rfl

/-- **The options say where the files come from.**  Take any command line that is accepted; its
paths are arguments in the order given, and its directory is the last one passed.  A directory
together with paths is a usage error.  With an accepted number of workers, the run goes on with the
files below the directory, or reports that there is no such directory; without a directory it goes
on with the paths.  Git is started only with neither, and the run goes on with what it lists. -/
theorem provider_of_options (w : World) (hparse : Options.parse arguments = .ok o) :
    -- what is passed
    (o.paths.Sublist arguments ∧ ∃ tokens, Token.ofArguments arguments = .ok tokens ∧
      o.walk = (Token.directories tokens).getLast?.map Given.ofText) ∧
    -- a directory and paths
    (∀ dir, o.walk = some (.value dir) → dir ≠ [] → o.paths ≠ [] →
      run w arguments = { Conclusion.ofStop (.usage .walkWithPaths) with files := w.disk.files } ∧
      (run w arguments).ending = .usage 2 ∧
      (run w arguments).complaints = (Text.ofLines [Usage.line,
        lit "bidiscan: error: --walk cannot be combined with explicit paths"]).escaped) ∧
    ∀ n, o.workers w.environment = .ok n →
      -- a directory
      (∀ dir, o.walk = some (.value dir) → dir ≠ [] → o.paths = [] →
        run w arguments = proceed w (o.planFrom w.environment n (.walk dir)) (w.disk.walk dir) ∧
        (run w arguments).gitStarts = 0 ∧
        ∀ e, (w.disk.walk dir).result = .error (.listing e) →
          (run w arguments).ending = .status 1 ∧ (run w arguments).output = [] ∧
          (run w arguments).complaints =
            (Text.ofLines [lit "Error getting file list: " ++ e.message]).marked) ∧
      -- paths
      (o.NoDirectory → o.paths ≠ [] →
        run w arguments = finish w (o.planFrom w.environment n (.given o.paths)) [] o.paths ∧
        (run w arguments).gitStarts = 0) ∧
      -- neither
      (o.NoDirectory → o.paths = [] →
        run w arguments = proceed w (o.planFrom w.environment n .git)
          ⟨(w.git.list none).log, (w.git.list none).result.mapError .listing⟩ ∧
        (run w arguments).gitStarts = 1) := by
  refine ⟨Options.reads_parse hparse, ?_, fun n hn => ⟨?_, ?_, ?_⟩⟩
  · intro dir hdir hne hpaths
    have hconflict := Options.ofCommandLine_eq_error_iff.mpr
      (.inr ⟨rfl, _, _, hparse, hpaths, hdir, hne⟩)
    have hrun := (Course.stopped (w := w) hconflict).eq_run
    rw [hrun]
    exact ⟨rfl, rfl, rfl⟩
  · intro dir hdir hne hpaths
    have ho := Options.ofCommandLine_eq_ok_iff.mpr ⟨hparse, .inl hpaths⟩
    obtain ⟨hrun, hgit⟩ := run_of_provider ho hn (Provider.ofOptions_walk hpaths hdir hne)
    refine ⟨hrun, hgit, ?_⟩
    intro e he
    rw [hrun, Provider.list, Disk.walk_eq_of_listing_error he]
    exact ⟨rfl, rfl, rfl⟩
  · intro hnone hpaths
    have ho := Options.ofCommandLine_eq_ok_iff.mpr ⟨hparse, .inr hnone⟩
    exact run_of_provider ho hn (Provider.ofOptions_given hpaths)
  · intro hnone hpaths
    have ho := Options.ofCommandLine_eq_ok_iff.mpr ⟨hparse, .inr hnone⟩
    exact run_of_provider ho hn (Provider.ofOptions_git hpaths hnone)

/-- A directory with one file, which git tracks. -/
def tracked : World :=
  { disk := { files := { root := .dir [([0x61], .file [0x78])], working := [] } }
    environment := [(lit "BIDISCAN_REPORT_PATH", lit "r")]
    git := .finished [0x61, 0] [] 0 }

theorem provider_of_options_tracked :
    (run tracked [lit "a", lit "--walk", lit "."]).ending = .usage 2 ∧
      run tracked [lit "--walk", lit "."] = finish tracked ⟨.walk (lit "."), 1, lit "r", 0⟩
        [.walked (lit ".") 1] [lit "./a"] ∧
      (run tracked [lit "--walk", lit "a"]).ending = .status 1 ∧
      run tracked [lit "b", lit "a"] = finish tracked
        ⟨.given [lit "b", lit "a"], 1, lit "r", 0⟩ [] [lit "b", lit "a"] ∧
      run tracked [] = finish tracked ⟨.git, 1, lit "r", 0⟩ [.tracked 1] [lit "a"] := by
  have hboth : Options.parse [lit "a", lit "--walk", lit "."] =
      .ok { paths := [lit "a"], walk := some (.value (lit ".")) } := rfl
  have hwalk : Options.parse [lit "--walk", lit "."] =
      .ok { walk := some (.value (lit ".")) } := rfl
  have hfile : Options.parse [lit "--walk", lit "a"] =
      .ok { walk := some (.value (lit "a")) } := rfl
  have hgiven : Options.parse [lit "b", lit "a"] = .ok { paths := [lit "b", lit "a"] } := rfl
  have hneither : Options.parse [] = .ok {} := rfl
  have hlist : tracked.disk.walk (lit ".") = ⟨[.walked (lit ".") 1], .ok [lit "./a"]⟩ := rfl
  have hgit : tracked.git.list none = ⟨[.tracked 1], .ok [lit "a"]⟩ := rfl
  refine ⟨?_, ?_, ?_, ?_, ?_⟩
  · exact ((provider_of_options tracked hboth).2.1 _ rfl nofun nofun).2.1
  · obtain ⟨hrun, -, -⟩ := ((provider_of_options tracked hwalk).2.2 1 rfl).1 _ rfl nofun rfl
    rw [hrun, hlist]
    rfl
  · exact ((((provider_of_options tracked hfile).2.2 1 rfl).1 _ rfl nofun rfl).2.2 _ rfl).1
  · exact (((provider_of_options tracked hgiven).2.2 1 rfl).2.1 (.inl rfl) nofun).1
  · obtain ⟨hrun, -⟩ := ((provider_of_options tracked hneither).2.2 1 rfl).2.2 (.inl rfl) rfl
    rw [hrun, hgit]
    rfl

/-- A directory without a name is given up silently, and git asked instead. -/
theorem provider_of_options_emptyDirectory :
    Options.parse [lit "--walk", []] = .ok { walk := some (.value []) } ∧
      (tracked.disk.walk []).result = .error (.listing (.notDirectory [])) ∧
      (run tracked [lit "--walk", []]).ending = .status 0 ∧
      (run tracked [lit "--walk", []]).gitStarts = 1 ∧
      (run tracked [lit "--walk", []]).opened = [lit "a"] ∧
      (run tracked [lit "b", lit "a", lit "--walk", []]).opened = [lit "b", lit "a"] :=
  ⟨rfl, rfl, by decide +kernel, rfl, rfl, rfl⟩

end Gate

end HiddenText
