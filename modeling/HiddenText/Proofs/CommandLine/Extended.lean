import HiddenText.Proofs.CommandLine.Accepted

/-!
# Command lines with more behind

What becomes of an accepted command line when more is put behind it, as long as it has no separator:
reading goes on where it had stopped (`Progress.consume_append`).  A switch with its value attached
acts with that value, whatever it is (`Options.parse_append_withValue`).  Behind the separator
everything is a path, whatever it looks like (`Options.parse_append_separator`).
-/

namespace HiddenText

/-- A switch in long form with a value attached. -/
def Switch.withValue (s : Switch) (value : Text) : Text := s.long ++ Token.equals :: value

namespace Token

theorem cutAtEquals_append {start : Text} (h : equals ∉ start) (value : Text) :
    cutAtEquals (start ++ equals :: value) = (start, some value) := by
  have hstart : ∀ c ∈ start, (c != equals) = true := by
    intro c hc
    rw [bne_iff_ne]
    rintro rfl
    exact h hc
  have hdrop : (start ++ equals :: value).dropWhile (· != equals) = equals :: value := by
    rw [List.dropWhile_append_of_pos hstart]
    simp
  have htake : (start ++ equals :: value).takeWhile (· != equals) = start := by
    rw [List.takeWhile_append_of_pos hstart]
    simp
  rw [cutAtEquals, hdrop, htake]

theorem equals_not_mem_long (s : Switch) : equals ∉ s.long := by
  cases s <;> decide

theorem spelled?_long (s : Switch) : spelled? s.long = some (s, false) := by
  cases s <;> decide

theorem spelled?_eq_none {t : Text} (hequals : equals ∈ t) (hlength : 2 < t.length) :
    spelled? t = none := by
  have hfind : Switch.all.find? (fun s => s.long == t) = none := by
    rw [List.find?_eq_none]
    intro s _ hs
    rw [beq_iff_eq] at hs
    exact equals_not_mem_long s (hs ▸ hequals)
  match t, hlength, hfind with
  | a :: b :: c :: rest, _, hfind => simp only [spelled?, hfind]

theorem exists_long_eq (s : Switch) :
    ∃ c rest, s.long = CodePoint.hyphen :: CodePoint.hyphen :: c :: rest := by
  cases s <;> exact ⟨_, _, rfl⟩

theorem classify_withValue (s : Switch) (value : Text) :
    classify (s.withValue value) = .ok (.option s false (some value)) := by
  obtain ⟨c, rest, hlong⟩ := exists_long_eq s
  have hequals : equals ∈ s.withValue value :=
    List.mem_append_right _ List.mem_cons_self
  have hlength : 2 < (s.withValue value).length := by
    rw [Switch.withValue, hlong]
    simp
  have hnone := spelled?_eq_none hequals hlength
  have hcut : cutAtEquals (s.withValue value) = (s.long, some value) :=
    cutAtEquals_append (equals_not_mem_long s) value
  have hcons : s.withValue value =
      CodePoint.hyphen :: CodePoint.hyphen :: (c :: rest ++ equals :: value) := by
    rw [Switch.withValue, hlong]
    rfl
  rw [hcons] at hnone hcut ⊢
  rw [classify, if_neg (not_not_intro rfl)]
  simp only [hnone, hcut, spelled?_long]

theorem withValue_ne_separatorText (s : Switch) (value : Text) :
    s.withValue value ≠ separatorText := by
  intro h
  have hequals : equals ∈ separatorText := h ▸ List.mem_append_right _ List.mem_cons_self
  exact absurd hequals (by decide)

/-- Tokens are found one by one up to the separator. -/
theorem ofArguments_append {before : List Text} {tokens : List Token}
    (hseparator : separatorText ∉ before) (h : ofArguments before = .ok tokens) :
    .separator ∉ tokens ∧
      ∀ rest, ofArguments (before ++ rest) = (ofArguments rest).map (tokens ++ ·) := by
  induction before generalizing tokens with
  | nil =>
    obtain rfl := Except.ok.inj h
    refine ⟨List.not_mem_nil, fun rest => ?_⟩
    cases hrest : ofArguments rest <;> simp [hrest, Except.map]
  | cons t before ih =>
    obtain ⟨ht, hseparator⟩ := List.ne_and_not_mem_of_not_mem_cons hseparator
    obtain ⟨token, tokens', hclassify, hbefore, rfl⟩ := ofArguments_cons_eq_ok (Ne.symm ht) h
    obtain ⟨hnot, happend⟩ := ih hseparator hbefore
    constructor
    · rw [List.mem_cons, not_or]
      refine ⟨?_, hnot⟩
      rintro rfl
      rcases isReading_of_classify hclassify with h | h | ⟨s, byLetter, attached, h⟩ <;> cases h
    · intro rest
      rw [List.cons_append, ofArguments, if_neg (Ne.symm ht), hclassify]
      simp only [happend]
      cases ofArguments rest <;> rfl

end Token

theorem Cluster.ofOption_attached {s : Switch} (hs : s.takesValue) (value : Text) :
    Cluster.ofOption s false (some value) = .ok ⟨[], s, some value⟩ := by
  cases value <;> rw [Cluster.ofOption, Cluster.extend, if_pos hs]

/-- A number of workers is taken as it is, whether or not it can be one. -/
theorem Options.set_jobs_of_toInt? {t : Text} {n : Int} (hn : Numeral.toInt? t = some n)
    (o : Options) : o.set .jobs t = .ok { o with jobs := some (.value n) } := by
  have hseparator : t ≠ Token.separatorText := by
    rintro rfl
    have hnone : Numeral.toInt? Token.separatorText = none := by decide
    rw [hnone] at hn
    cases hn
  rw [set, if_neg hseparator]
  simp only [hn]

namespace Progress

variable {p p' : Progress}

theorem consume_append {tokens : List Token} (h : p.consume tokens = .ok p')
    (more : List Token) : p.consume (tokens ++ more) = p'.consume more := by
  fun_induction consume p tokens with
  | case1 p =>
    obtain rfl := Except.ok.inj h
    rfl
  | case2 p t rest ih => exact ih h
  | case3 p rest ih => exact ih h
  | case4 p t rest ih => exact ih h
  | case6 p s byLetter attached rest c hc hvalue value hattached p'' hact ih =>
    rw [List.cons_append, consume]
    simp only [hc, hvalue, hattached, hact, if_true]
    exact ih h
  | case8 p s byLetter attached c hc hvalue hattached value rest p'' hact ih =>
    rw [List.cons_append, List.cons_append, consume]
    simp only [hc, hvalue, hattached, hact, if_true]
    exact ih h
  | case11 p s byLetter attached rest c hc hvalue p'' hact ih =>
    rw [List.cons_append, consume]
    simp only [hc, hvalue, hact]
    exact ih h
  | case5 | case7 | case9 | case10 | case12 => cases h

/-- Without paths the run of paths is still to come. -/
def Untaken (p : Progress) : Prop := p.options.paths = [] → p.run = .awaited

theorem Untaken.endRun (h : p.Untaken) : p.endRun.Untaken := by
  rw [Untaken, endRun_options]
  intro hpaths
  rw [Progress.endRun, if_neg (by rw [h hpaths]; decide)]
  exact h hpaths

theorem Untaken.takeArgument (h : p.Untaken) (t : Text) : (p.takeArgument t).Untaken := by
  rw [Progress.takeArgument]
  split
  · exact h
  · exact fun hpaths => absurd (List.append_eq_nil_iff.mp hpaths).2 (List.cons_ne_nil _ _)

theorem Untaken.act {flags : List Switch} {change : Options → Except Stop Options}
    (h : p.Untaken) (hact : p.endRun.act (fun o => (o.flagAll flags).bind change) = .ok p')
    (hchange : ∀ o o', change o = .ok o' → o'.paths = o.paths) : p'.Untaken := by
  obtain ⟨hrun, o, hpaths, -, ho⟩ := act_eq_ok hact
  intro hnil
  rw [hchange o _ ho, hpaths, ← endRun_options] at hnil
  rw [hrun]
  exact h.endRun hnil

theorem Untaken.consume {tokens : List Token} (hp : p.Untaken) (h : p.consume tokens = .ok p')
    (hseparator : .separator ∉ tokens) : p'.Untaken := by
  fun_induction Progress.consume p tokens with
  | case1 p =>
    obtain rfl := Except.ok.inj h
    exact hp
  | case2 p t rest ih => exact ih (hp.takeArgument t) h (List.not_mem_of_not_mem_cons hseparator)
  | case3 p rest ih => exact absurd List.mem_cons_self hseparator
  | case4 p t rest ih => exact ih hp.endRun h (List.not_mem_of_not_mem_cons hseparator)
  | case6 p s byLetter attached rest c hc hvalue value hattached p'' hact ih =>
    exact ih (hp.act hact fun o o' ho => (Options.set_eq_ok ho).1) h
      (List.not_mem_of_not_mem_cons hseparator)
  | case8 p s byLetter attached c hc hvalue hattached value rest p'' hact ih =>
    exact ih (hp.act hact fun o o' ho => (Options.set_eq_ok ho).1) h
      (List.not_mem_of_not_mem_cons (List.not_mem_of_not_mem_cons hseparator))
  | case11 p s byLetter attached rest c hc hvalue p'' hact ih =>
    exact ih (hp.act hact fun o o' ho => (Options.flag_eq_ok ho).1) h
      (List.not_mem_of_not_mem_cons hseparator)
  | case5 | case7 | case9 | case10 | case12 => cases h

theorem consume_withValue {s : Switch} (hs : s.takesValue) {value : Text} {o : Options}
    (h : p.options.set s value = .ok o) :
    p.consume [.option s false (some value)] = .ok { p.endRun with options := o } := by
  have hact : p.endRun.act (fun o => (o.flagAll []).bind (·.set s value)) =
      .ok { p.endRun with options := o } := by
    rw [act, endRun_options]
    simp only [Options.flagAll, Except.bind, h]
    rfl
  rw [consume]
  simp only [Cluster.ofOption_attached hs, hs, if_true, hact]
  rfl

/-- Plain arguments go on with the run of paths. -/
theorem consume_arguments (o : Options) (unrecognized paths : List Text) :
    consume ⟨o, .going, unrecognized⟩ (paths.map .argument) =
      .ok ⟨{ o with paths := o.paths ++ paths }, .going, unrecognized⟩ := by
  induction paths generalizing o with
  | nil => simp [consume]
  | cons path paths ih =>
    have hgoing : PathRun.going ≠ .over := by decide
    rw [List.map_cons, consume, takeArgument, if_neg hgoing, ih]
    simp

end Progress

namespace Options

variable {before : List Text} {o : Options}

/-- An accepted command line without a separator can go on. -/
theorem exists_parse_append (h : parse before = .ok o) (hseparator : Token.separatorText ∉ before) :
    ∃ p : Progress, p.options = o ∧ p.unrecognized = [] ∧ p.Untaken ∧
      ∀ rest more p', Token.ofArguments rest = .ok more → p.consume more = .ok p' →
        p'.unrecognized = [] → parse (before ++ rest) = .ok p'.options := by
  obtain ⟨tokens, run, htokens, hconsume⟩ := exists_consume_of_parse h
  obtain ⟨hnot, happend⟩ := Token.ofArguments_append hseparator htokens
  have huntaken : Progress.Untaken {} := fun _ => rfl
  refine ⟨⟨o, run, []⟩, rfl, rfl, huntaken.consume hconsume hnot, ?_⟩
  intro rest more p' hmore hp' hunrecognized
  rw [parse, happend, hmore]
  simp only [Except.map]
  rw [Progress.consume_append hconsume, hp']
  simp only
  rw [if_pos (by rw [hunrecognized]; rfl)]

theorem parse_append_withValue {o' : Options} {s : Switch} {value : Text}
    (h : parse before = .ok o) (hseparator : Token.separatorText ∉ before) (hs : s.takesValue)
    (hset : o.set s value = .ok o') : parse (before ++ [s.withValue value]) = .ok o' := by
  obtain ⟨p, rfl, hunrecognized, -, hparse⟩ := exists_parse_append h hseparator
  have htokens : Token.ofArguments [s.withValue value] = .ok [.option s false (some value)] := by
    rw [Token.ofArguments, if_neg (Token.withValue_ne_separatorText s value),
      Token.classify_withValue]
    rfl
  refine hparse _ _ _ htokens (Progress.consume_withValue hs hset) ?_
  rw [Progress.endRun]
  split <;> exact hunrecognized

/-- Paths behind a separator, behind an accepted command line without paths. -/
theorem parse_append_separator (h : parse before = .ok o)
    (hseparator : Token.separatorText ∉ before) (hpaths : o.paths = []) (paths : List Text) :
    parse (before ++ Token.separatorText :: paths) = .ok { o with paths } := by
  obtain ⟨p, rfl, hunrecognized, huntaken, hparse⟩ := exists_parse_append h hseparator
  have htokens : Token.ofArguments (Token.separatorText :: paths) =
      .ok (.separator :: paths.map .argument) := by
    rw [Token.ofArguments, if_pos rfl]
  have hconsume : p.consume (.separator :: paths.map .argument) =
      .ok ⟨{ p.options with paths := p.options.paths ++ paths }, .going, p.unrecognized⟩ := by
    rw [Progress.consume, Progress.takeSeparator, if_neg (by rw [huntaken hpaths]; decide),
      Progress.consume_arguments]
  have h := hparse _ _ _ htokens hconsume hunrecognized
  rwa [hpaths, List.nil_append] at h

/-- Any report path and any number of workers can be asked for. -/
theorem parse_report_jobs {report number : Text} {n : Int} (hn : Numeral.toInt? number = some n) :
    parse [Switch.report.withValue report, Switch.jobs.withValue number] =
      .ok { report := some (.ofText report), jobs := some (.value n) } := by
  have hreport : parse ([] ++ [Switch.report.withValue report]) =
      .ok { report := some (.ofText report) } :=
    parse_append_withValue rfl List.not_mem_nil rfl rfl
  refine parse_append_withValue hreport ?_ rfl (set_jobs_of_toInt? hn _)
  rw [List.nil_append, List.mem_singleton]
  exact (Token.withValue_ne_separatorText .report report).symm

end Options

end HiddenText
