import HiddenText.Proofs.CommandLine.Extended

/-!
# One more option

What becomes of a command line when an option is put into it.  A change of options that commutes
with all that tokens do (`Options.Commutes`) may be made at the end as well as on the way
(`Options.Commutes.consume`).  One more degree of verbosity is such a change, and so is a number of
workers for a command line that asks for none; both leave it open whether the rest is accepted, and
what else it asks for (`Options.parse_replicate_verbose`, `Options.Gap.parse_jobs`).
-/

namespace HiddenText

namespace Options

variable {f : Options → Options}

/-- A change of options that comes to the same before and after whatever a token does. -/
structure Commutes (f : Options → Options) : Prop where
  takePath : ∀ o t, f { o with paths := o.paths ++ [t] } = { f o with paths := (f o).paths ++ [t] }
  flag : ∀ o s, (f o).flag s = (o.flag s).map f
  set : ∀ o s value, (f o).set s value = (o.set s value).map f

def orJobs (n : Int) (o : Options) : Options := { o with jobs := o.jobs.or (some (.value n)) }

theorem commutes_orJobs (n : Int) : Commutes (orJobs n) where
  takePath := fun _ _ => rfl
  flag := by
    intro o s
    cases s <;> rfl
  set := by
    intro o s value
    cases s with
    | jobs =>
      -- a number that is passed counts, with the change made before as well as after
      rw [set, set]
      split
      · rfl
      · split <;> rfl
    | help | verbose | walk | report => rfl

theorem Commutes.flagAll (hf : Commutes f) (flags : List Switch) (o : Options) :
    (f o).flagAll flags = (o.flagAll flags).map f := by
  induction flags generalizing o with
  | nil => rfl
  | cons s flags ih =>
    rw [Options.flagAll, Options.flagAll, hf.flag]
    cases o.flag s with
    | error stop => rfl
    | ok o' => exact ih o'

end Options

namespace Progress

variable {f : Options → Options} {p : Progress}

def mapOptions (f : Options → Options) (p : Progress) : Progress :=
  { p with options := f p.options }

theorem endRun_mapOptions (f : Options → Options) (p : Progress) :
    (p.mapOptions f).endRun = p.endRun.mapOptions f := by
  rw [endRun, endRun, mapOptions]
  split <;> rfl

theorem takeSeparator_mapOptions (f : Options → Options) (p : Progress) :
    (p.mapOptions f).takeSeparator = p.takeSeparator.mapOptions f := by
  rw [takeSeparator, takeSeparator, mapOptions]
  split <;> rfl

theorem takeArgument_mapOptions (hf : Options.Commutes f) (p : Progress) (t : Text) :
    (p.mapOptions f).takeArgument t = (p.takeArgument t).mapOptions f := by
  rw [takeArgument, takeArgument, mapOptions]
  split
  · rfl
  · rw [mapOptions]
    simp only [hf.takePath]

/-- A change commutes with letters and the switch behind them. -/
theorem act_mapOptions (hf : Options.Commutes f) {change : Options → Except Stop Options}
    (hchange : ∀ o, change (f o) = (change o).map f) (p : Progress) (flags : List Switch) :
    (p.mapOptions f).endRun.act (fun o => (o.flagAll flags).bind change) =
      (p.endRun.act fun o => (o.flagAll flags).bind change).map (Progress.mapOptions f) := by
  rw [endRun_mapOptions, act, act, mapOptions]
  simp only [hf.flagAll]
  cases p.endRun.options.flagAll flags with
  | error stop => rfl
  | ok o =>
    simp only [Except.map, Except.bind, hchange]
    cases change o <;> rfl

theorem act_set_mapOptions (hf : Options.Commutes f) (p : Progress) (flags : List Switch)
    (s : Switch) (value : Text) :
    (p.mapOptions f).endRun.act (fun o => (o.flagAll flags).bind (·.set s value)) =
      (p.endRun.act fun o => (o.flagAll flags).bind (·.set s value)).map (Progress.mapOptions f) :=
  act_mapOptions hf (fun o => hf.set o s value) p flags

theorem act_flag_mapOptions (hf : Options.Commutes f) (p : Progress) (flags : List Switch)
    (s : Switch) :
    (p.mapOptions f).endRun.act (fun o => (o.flagAll flags).bind (·.flag s)) =
      (p.endRun.act fun o => (o.flagAll flags).bind (·.flag s)).map (Progress.mapOptions f) :=
  act_mapOptions hf (fun o => hf.flag o s) p flags

end Progress

theorem Options.Commutes.consume {f : Options → Options} (hf : Commutes f) (p : Progress)
    (tokens : List Token) :
    (p.mapOptions f).consume tokens = (p.consume tokens).map (Progress.mapOptions f) := by
  fun_induction Progress.consume p tokens with
  | case1 p => rfl
  | case2 p t rest ih => rw [Progress.consume, Progress.takeArgument_mapOptions hf, ih]
  | case3 p rest ih => rw [Progress.consume, Progress.takeSeparator_mapOptions, ih]
  | case4 p t rest ih =>
    rw [Progress.consume, Progress.endRun_mapOptions]
    exact ih
  | case5 p s byLetter attached rest e hc =>
    rw [Progress.consume]
    simp only [hc, Except.map]
  | case6 p s byLetter attached rest c hc hvalue value hattached p' hact ih =>
    rw [Progress.consume]
    simp only [hc, hvalue, hattached, if_true, Progress.act_set_mapOptions hf, hact, Except.map]
    exact ih
  | case7 p s byLetter attached rest c hc hvalue value hattached stop hact =>
    rw [Progress.consume]
    simp only [hc, hvalue, hattached, if_true, Progress.act_set_mapOptions hf, hact, Except.map]
  | case8 p s byLetter attached c hc hvalue hattached value rest p' hact ih =>
    rw [Progress.consume]
    simp only [hc, hvalue, hattached, if_true, Progress.act_set_mapOptions hf, hact, Except.map]
    exact ih
  | case9 p s byLetter attached c hc hvalue hattached value rest stop hact =>
    rw [Progress.consume]
    simp only [hc, hvalue, hattached, if_true, Progress.act_set_mapOptions hf, hact, Except.map]
  | case10 p s byLetter attached rest c hc hvalue hattached hrest =>
    rw [Progress.consume]
    simp only [hc, hvalue, hattached, if_true]
    rfl
  | case11 p s byLetter attached rest c hc hvalue p' hact ih =>
    rw [Progress.consume]
    simp only [hc, hvalue, Progress.act_flag_mapOptions hf, hact, Except.map]
    exact ih
  | case12 p s byLetter attached rest c hc hvalue stop hact =>
    rw [Progress.consume]
    simp only [hc, hvalue, Progress.act_flag_mapOptions hf, hact, Except.map]
    rfl

/-! ## Reading on -/

namespace Progress

variable {f : Options → Options} {p : Progress} {o : Options} {s : Switch} {value : Text}

/-- What is asked for when everything has been taken. -/
def result (p : Progress) : Except Stop Options :=
  if p.unrecognized.isEmpty then .ok p.options
  else .error (.usage (.unrecognized p.unrecognized))

def read (p : Progress) (arguments : List Text) : Except Stop Options :=
  match Token.ofArguments arguments with
  | .error e => .error (.usage e)
  | .ok tokens => (p.consume tokens).bind result

theorem result_mapOptions (f : Options → Options) (p : Progress) :
    (p.mapOptions f).result = p.result.map f := by
  rw [result, result, mapOptions]
  split <;> rfl

theorem read_mapOptions (hf : Options.Commutes f) (p : Progress) (arguments : List Text) :
    (p.mapOptions f).read arguments = (p.read arguments).map f := by
  rw [read, read]
  cases Token.ofArguments arguments with
  | error e => rfl
  | ok tokens =>
    simp only [hf.consume]
    cases p.consume tokens with
    | error stop => rfl
    | ok p' => exact result_mapOptions f p'

theorem endRun_endRun (p : Progress) : p.endRun.endRun = p.endRun := by
  by_cases hrun : p.run = .going
  · have hover : p.endRun = { p with run := .over } := if_pos hrun
    rw [hover]
    exact if_neg nofun
  · rw [endRun, endRun, if_neg hrun, if_neg hrun]

end Progress

/-- The argument would go on with a run of paths. -/
def Token.IsPlain (t : Text) : Prop := t = separatorText ∨ classify t = .ok (.argument t)

theorem Token.not_isPlain_withValue (s : Switch) (value : Text) :
    ¬IsPlain (s.withValue value) := by
  rintro (h | h)
  · exact withValue_ne_separatorText s value h
  · rw [classify_withValue] at h
    cases h

namespace Progress

variable {p : Progress} {o : Options} {s : Switch} {value : Text}

/-- It does not matter whether the run of paths is over when no path follows. -/
theorem read_endRun {arguments : List Text}
    (h : p.run = .going → ∀ t ∈ arguments.head?, ¬Token.IsPlain t) :
    p.endRun.read arguments = p.read arguments := by
  by_cases hrun : p.run = .going
  · cases arguments with
    | nil =>
      rw [endRun, if_pos hrun]
      rfl
    | cons t rest =>
      obtain ⟨hseparator, hplain⟩ := not_or.mp (h hrun t rfl)
      rw [read, read, Token.ofArguments, if_neg hseparator]
      cases hclassify : Token.classify t with
      | error e => rfl
      | ok token =>
        cases Token.ofArguments rest with
        | error e => rfl
        | ok tokens =>
          simp only [Except.map]
          obtain rfl | rfl | ⟨s, byLetter, attached, rfl⟩ := Token.isReading_of_classify hclassify
          · exact absurd hclassify hplain
          · rw [consume, consume, endRun_endRun]
          · rw [consume, consume, endRun_endRun]
  · rw [endRun, if_neg hrun]

theorem read_withValue (hs : s.takesValue) (hset : p.options.set s value = .ok o)
    (rest : List Text) :
    p.read (s.withValue value :: rest) = { p.endRun with options := o }.read rest := by
  rw [read, read, Token.ofArguments, if_neg (Token.withValue_ne_separatorText s value),
    Token.classify_withValue]
  cases Token.ofArguments rest with
  | error e => rfl
  | ok tokens =>
    simp only [Except.map]
    rw [← List.singleton_append, consume_append (consume_withValue hs hset)]

/-- A value that is refused is a usage error, unless there is another one. -/
theorem exists_read_withValue_eq_error {e : UsageError} (hs : s.takesValue)
    (hset : p.options.set s value = .error (.usage e)) (rest : List Text) :
    ∃ e', p.read (s.withValue value :: rest) = .error (.usage e') := by
  rw [read, Token.ofArguments, if_neg (Token.withValue_ne_separatorText s value),
    Token.classify_withValue]
  cases Token.ofArguments rest with
  | error e' => exact ⟨e', rfl⟩
  | ok tokens =>
    have hact : p.endRun.act (fun o => (o.flagAll []).bind (·.set s value)) =
        .error (.usage e) := by
      rw [act, endRun_options]
      simp only [Options.flagAll, Except.bind, hset]
      rfl
    refine ⟨e, ?_⟩
    simp only [Except.map]
    rw [consume]
    simp only [Cluster.ofOption_attached hs, hs, if_true, hact]
    rfl

end Progress

namespace Options

variable {before after : List Text} {o : Options} {s : Text} {n : Int}

theorem parse_eq_read (arguments : List Text) : parse arguments = Progress.read {} arguments := by
  rw [parse, Progress.read]
  cases Token.ofArguments arguments with
  | error e => rfl
  | ok tokens =>
    simp only
    cases Progress.consume {} tokens <;> rfl

/-! ## Letters in front -/

/-- A place in a command line where an option with its value attached can be put: what is in front of
it is accepted by itself and has no separator, and the option does not break a run of paths. -/
structure Gap (before after : List Text) (o : Options) : Prop where
  accepted : parse before = .ok o
  noSeparator : Token.separatorText ∉ before
  noPath : o.paths ≠ [] → ∀ t ∈ after.head?, ¬Token.IsPlain t

namespace Gap

theorem exists_read (h : Gap before after o) : ∃ p : Progress, p.options = o ∧
    (∀ rest, parse (before ++ rest) = p.read rest) ∧ p.endRun.read after = p.read after := by
  obtain ⟨tokens, run, htokens, hconsume⟩ := exists_consume_of_parse h.accepted
  obtain ⟨hnot, happend⟩ := Token.ofArguments_append h.noSeparator htokens
  have huntaken : Progress.Untaken ⟨o, run, []⟩ :=
    Progress.Untaken.consume (fun _ => rfl) hconsume hnot
  refine ⟨⟨o, run, []⟩, rfl, ?_, ?_⟩
  · intro rest
    rw [parse_eq_read, Progress.read, happend, Progress.read]
    cases Token.ofArguments rest with
    | error e => rfl
    | ok more =>
      simp only [Except.map]
      rw [Progress.consume_append hconsume]
  · refine Progress.read_endRun fun hgoing => h.noPath fun hpaths => ?_
    rw [huntaken hpaths] at hgoing
    cases hgoing

theorem parse_jobs (h : Gap before after o) (hjobs : o.jobs = none)
    (hn : Numeral.toInt? s = some n) :
    parse (before ++ Switch.jobs.withValue s :: after) =
      (parse (before ++ after)).map (orJobs n) := by
  obtain ⟨p, rfl, hparse, hendRun⟩ := h.exists_read
  have hset : p.options.set .jobs s = .ok (orJobs n p.options) := by
    rw [set_jobs_of_toInt? hn, orJobs, hjobs, Option.none_or]
  have hchange : { p.endRun with options := orJobs n p.options } =
      p.endRun.mapOptions (orJobs n) := by
    rw [Progress.mapOptions, Progress.endRun_options]
  rw [hparse, hparse, Progress.read_withValue rfl hset, hchange,
    Progress.read_mapOptions (commutes_orJobs n), hendRun]

/-- What is no number of workers is refused. -/
theorem exists_parse_jobs_eq_error (h : Gap before after o) (hs : s ≠ Token.separatorText)
    (hn : Numeral.toInt? s = none) :
    ∃ e, parse (before ++ Switch.jobs.withValue s :: after) = .error (.usage e) := by
  obtain ⟨p, rfl, hparse, -⟩ := h.exists_read
  have hset : p.options.set .jobs s = .error (.usage (.invalidNumber s)) := by
    rw [set, if_neg hs]
    simp only [hn]
  rw [hparse]
  exact Progress.exists_read_withValue_eq_error rfl hset after

end Gap

end Options

end HiddenText
