import HiddenText.CommandLine.Parser

/-!
# Accepted command lines

What the options of an accepted command line owe to its arguments (`Options.Reads`): the paths are
arguments, in the order in which they are given, and the directory to walk is the last value passed
to its switch, wherever it stands and however it is spelled.  The tokens are taken one by one, and
every one adds its part (`Progress.reads_consume`).

Main statement: `Options.reads_parse`.
-/

namespace HiddenText

def Given.ofText (value : Text) : Given Text :=
  if value = Token.separatorText then .dropped else .value value

namespace Token

def argument? : Token → Option Text
  | .argument t => some t
  | _ => none

/-- The values that are passed to the switch for a directory to walk. -/
def directories : List Token → List Text
  | [] => []
  | .option .walk _ (some value) :: rest => value :: directories rest
  | .option .walk _ none :: .argument value :: rest => value :: directories rest
  | _ :: rest => directories rest

theorem directories_option_of_ne {s : Switch} (hs : s ≠ .walk) (byLetter : Bool)
    (attached : Option Text) (rest : List Token) :
    directories (.option s byLetter attached :: rest) = directories rest := by
  cases s with
  | walk => exact absurd rfl hs
  | help | report | jobs | verbose => rfl

theorem directories_append_of_ne {s : Switch} (hs : s ≠ .walk) (byLetter : Bool)
    (attached : Option Text) {more rest : List Token}
    (hmore : directories (more ++ rest) = directories more ++ directories rest) :
    directories (.option s byLetter attached :: more ++ rest) =
      directories (.option s byLetter attached :: more) ++ directories rest := by
  rw [List.cons_append, directories_option_of_ne hs, directories_option_of_ne hs, hmore]

/-- What a text is taken for. -/
def IsReading (t : Text) (token : Token) : Prop :=
  token = .argument t ∨ token = .unknown t ∨
    ∃ s byLetter attached, token = .option s byLetter attached

theorem isReading_unmatched (t : Text) : IsReading t (unmatched t) := by
  rw [unmatched]
  split
  · exact .inl rfl
  · exact .inr (.inl rfl)

theorem isReading_of_ofLong {t : Text} {token : Token} (h : ofLong t = .ok token) :
    IsReading t token := by
  rw [ofLong] at h
  simp only at h
  split at h
  · obtain rfl := Except.ok.inj h
    exact isReading_unmatched t
  · obtain rfl := Except.ok.inj h
    exact .inr (.inr ⟨_, _, _, rfl⟩)
  · cases h

theorem isReading_of_unspelled {a b : CodePoint} {rest : List CodePoint} {token : Token}
    (h : classify.unspelled a b rest = .ok token) : IsReading (a :: b :: rest) token := by
  rw [classify.unspelled] at h
  split at h
  · exact isReading_of_ofLong h
  · split at h
    · obtain rfl := Except.ok.inj h
      exact .inr (.inr ⟨_, _, _, rfl⟩)
    · obtain rfl := Except.ok.inj h
      exact isReading_unmatched _

theorem isReading_of_classify {t : Text} {token : Token} (h : classify t = .ok token) :
    IsReading t token := by
  match t, h with
  | [], h | [_], h => exact .inl (Except.ok.inj h).symm
  | a :: b :: rest, h =>
    rw [classify] at h
    split at h
    · exact .inl (Except.ok.inj h).symm
    · split at h
      · obtain rfl := Except.ok.inj h
        exact .inr (.inr ⟨_, _, _, rfl⟩)
      · split at h
        · split at h
          · obtain rfl := Except.ok.inj h
            exact .inr (.inr ⟨_, _, _, rfl⟩)
          · exact isReading_of_unspelled h
        · exact isReading_of_unspelled h

theorem ofArguments_cons_eq_ok {t : Text} {rest : List Text} {tokens : List Token}
    (ht : t ≠ separatorText) (h : ofArguments (t :: rest) = .ok tokens) :
    ∃ token tokens', classify t = .ok token ∧ ofArguments rest = .ok tokens' ∧
      tokens = token :: tokens' := by
  rw [ofArguments, if_neg ht] at h
  cases hclassify : classify t with
  | error e =>
    rw [hclassify] at h
    cases h
  | ok token =>
    rw [hclassify] at h
    cases hrest : ofArguments rest with
    | error e =>
      rw [hrest] at h
      cases h
    | ok tokens' =>
      rw [hrest] at h
      obtain rfl := Except.ok.inj h
      exact ⟨token, tokens', rfl, rfl, rfl⟩

theorem sublist_of_ofArguments {arguments : List Text} {tokens : List Token}
    (h : ofArguments arguments = .ok tokens) : (tokens.filterMap argument?).Sublist arguments := by
  induction arguments generalizing tokens with
  | nil =>
    obtain rfl := Except.ok.inj h
    exact List.Sublist.refl _
  | cons t rest ih =>
    by_cases ht : t = separatorText
    · rw [ofArguments, if_pos ht] at h
      obtain rfl := Except.ok.inj h
      have hrest : (rest.map Token.argument).filterMap argument? = rest := by
        rw [List.filterMap_map]
        exact List.filterMap_some
      rw [List.filterMap_cons_none rfl, hrest]
      exact List.sublist_cons_self _ _
    · obtain ⟨token, tokens', hclassify, hrest, rfl⟩ := ofArguments_cons_eq_ok ht h
      rcases isReading_of_classify hclassify with rfl | rfl | ⟨s, byLetter, attached, rfl⟩
      · exact (ih hrest).cons_cons _
      · exact (ih hrest).cons _
      · exact (ih hrest).cons _

end Token

/-! ## What one token adds -/

namespace Cluster

theorem ofLetter?_ne_walk (c : CodePoint) : Switch.ofLetter? c ≠ some .walk := by
  intro h
  have hletter := List.find?_some h
  cases hletter

theorem last_extend_ne_walk {flags : List Switch} {s : Switch} {byLetter : Bool} {t : Text}
    {c : Cluster} (hs : s ≠ .walk) (h : extend flags s byLetter t = .ok c) : c.last ≠ .walk := by
  fun_induction extend flags s byLetter t with
  | case1 | case3 =>
    obtain rfl := Except.ok.inj h
    exact hs
  | case2 | case4 | case7 => cases h
  | case5 flags s a rest hvalue next hnext hrest =>
    obtain rfl := Except.ok.inj h
    rintro rfl
    exact ofLetter?_ne_walk _ hnext
  | case6 flags s a rest hvalue next hnext hrest ih =>
    refine ih ?_ h
    rintro rfl
    exact ofLetter?_ne_walk _ hnext

/-- A switch is read as the one for a directory only if it is that, and then alone. -/
theorem ofOption_eq_ok {s : Switch} {byLetter : Bool} {attached : Option Text} {c : Cluster}
    (h : ofOption s byLetter attached = .ok c) :
    s = .walk ∧ c = ⟨[], .walk, attached⟩ ∨ s ≠ .walk ∧ c.last ≠ .walk := by
  by_cases hs : s = .walk
  · subst hs
    refine .inl ⟨rfl, ?_⟩
    match attached, h with
    | none, h | some [], h | some (_ :: _), h => exact (Except.ok.inj h).symm
  · refine .inr ⟨hs, ?_⟩
    cases attached with
    | none =>
      obtain rfl := Except.ok.inj h
      exact hs
    | some t => exact last_extend_ne_walk hs h

end Cluster

namespace Options

variable {o o' : Options}

theorem flag_eq_ok {s : Switch} (h : o.flag s = .ok o') :
    o'.paths = o.paths ∧ o'.walk = o.walk := by
  cases s with
  | help => cases h
  | verbose | walk | report | jobs =>
    obtain rfl := Except.ok.inj h
    exact ⟨rfl, rfl⟩

theorem flagAll_eq_ok {flags : List Switch} (h : o.flagAll flags = .ok o') :
    o'.paths = o.paths ∧ o'.walk = o.walk := by
  induction flags generalizing o with
  | nil =>
    obtain rfl := Except.ok.inj h
    exact ⟨rfl, rfl⟩
  | cons s flags ih =>
    rw [flagAll] at h
    cases hflag : o.flag s with
    | error stop =>
      rw [hflag] at h
      cases h
    | ok o'' =>
      rw [hflag] at h
      obtain ⟨hpaths, hwalk⟩ := ih h
      obtain ⟨hpaths', hwalk'⟩ := flag_eq_ok hflag
      exact ⟨hpaths.trans hpaths', hwalk.trans hwalk'⟩

theorem set_eq_ok {s : Switch} {value : Text} (h : o.set s value = .ok o') :
    o'.paths = o.paths ∧ (s ≠ .walk → o'.walk = o.walk) := by
  cases s with
  | walk =>
    obtain rfl := Except.ok.inj h
    exact ⟨rfl, fun hs => absurd rfl hs⟩
  | jobs =>
    simp only [set] at h
    split at h
    · obtain rfl := Except.ok.inj h
      exact ⟨rfl, fun _ => rfl⟩
    · split at h
      · obtain rfl := Except.ok.inj h
        exact ⟨rfl, fun _ => rfl⟩
      · cases h
  | help | report | verbose =>
    obtain rfl := Except.ok.inj h
    exact ⟨rfl, fun _ => rfl⟩

/-- What tokens add to options. -/
structure Reads (o o' : Options) (tokens : List Token) : Prop where
  paths : ∃ taken, o'.paths = o.paths ++ taken ∧
    taken.Sublist (tokens.filterMap Token.argument?)
  walk : o'.walk = ((Token.directories tokens).getLast?.map Given.ofText).or o.walk

namespace Reads

variable {o₁ o₂ : Options} {first rest : List Token}

theorem trans (h : o.Reads o₁ first) (h' : o₁.Reads o₂ rest)
    (hdirectories : Token.directories (first ++ rest) =
      Token.directories first ++ Token.directories rest) : o.Reads o₂ (first ++ rest) := by
  obtain ⟨taken, hpaths, htaken⟩ := h.paths
  obtain ⟨taken', hpaths', htaken'⟩ := h'.paths
  refine ⟨⟨taken ++ taken', ?_, ?_⟩, ?_⟩
  · rw [hpaths', hpaths, List.append_assoc]
  · rw [List.filterMap_append]
    exact htaken.append htaken'
  · rw [h'.walk, h.walk, hdirectories, List.getLast?_append, Option.map_or, Option.or_assoc]

theorem ofEq (hpaths : o₁.paths = o.paths) (hwalk : o₁.walk = o.walk)
    (hdirectories : Token.directories first = []) : o.Reads o₁ first := by
  refine ⟨⟨[], ?_, List.nil_sublist _⟩, ?_⟩
  · rw [hpaths, List.append_nil]
  · rw [hwalk, hdirectories]
    rfl

/-- A switch acts with a value; the walk is the one that is recorded. -/
theorem ofSet {s : Switch} {value : Text} (h : o.set s value = .ok o₁)
    (hwalk : s = .walk → Token.directories first = [value])
    (hother : s ≠ .walk → Token.directories first = []) : o.Reads o₁ first := by
  by_cases hs : s = .walk
  · have hfirst := hwalk hs
    subst hs
    obtain rfl := Except.ok.inj h
    refine ⟨⟨[], (List.append_nil _).symm, List.nil_sublist _⟩, ?_⟩
    rw [hfirst]
    rfl
  · obtain ⟨hpaths, hkept⟩ := set_eq_ok h
    exact ofEq hpaths (hkept hs) (hother hs)

end Reads

end Options

namespace Progress

variable {p p' : Progress}

theorem endRun_options (p : Progress) : p.endRun.options = p.options := by
  rw [endRun]
  split <;> rfl

theorem reads_takeArgument (p : Progress) (t : Text) :
    p.options.Reads (p.takeArgument t).options [.argument t] := by
  rw [takeArgument]
  split
  · exact .ofEq rfl rfl rfl
  · exact ⟨⟨[t], rfl, List.Sublist.refl _⟩, rfl⟩

theorem options_takeSeparator (p : Progress) : p.takeSeparator.options = p.options := by
  rw [takeSeparator]
  split <;> rfl

theorem act_eq_ok {flags : List Switch} {change : Options → Except Stop Options}
    (h : p.endRun.act (fun o => (o.flagAll flags).bind change) = .ok p') :
    p'.run = p.endRun.run ∧
      ∃ o, o.paths = p.options.paths ∧ o.walk = p.options.walk ∧ change o = .ok p'.options := by
  rw [act, endRun_options] at h
  cases hflags : p.options.flagAll flags with
  | error stop =>
    rw [hflags] at h
    cases h
  | ok o =>
    rw [hflags] at h
    obtain ⟨hpaths, hwalk⟩ := Options.flagAll_eq_ok hflags
    simp only [Except.bind] at h
    cases hchange : change o with
    | error stop =>
      rw [hchange] at h
      cases h
    | ok o' =>
      rw [hchange] at h
      obtain rfl := Except.ok.inj h
      exact ⟨rfl, o, hpaths, hwalk, hchange⟩

theorem reads_set {flags : List Switch} {s : Switch} {value : Text} {first : List Token}
    (h : p.endRun.act (fun o => (o.flagAll flags).bind (·.set s value)) = .ok p')
    (hwalk : s = .walk → Token.directories first = [value])
    (hother : s ≠ .walk → Token.directories first = []) : p.options.Reads p'.options first := by
  obtain ⟨-, o, hpaths, hkept, hset⟩ := act_eq_ok h
  have hflags : p.options.Reads o [] := .ofEq hpaths hkept rfl
  exact hflags.trans (.ofSet hset hwalk hother) rfl

theorem reads_flag {flags : List Switch} {s : Switch} {first : List Token}
    (h : p.endRun.act (fun o => (o.flagAll flags).bind (·.flag s)) = .ok p')
    (hfirst : Token.directories first = []) : p.options.Reads p'.options first := by
  obtain ⟨-, o, hpaths, hwalk, hflag⟩ := act_eq_ok h
  obtain ⟨hpaths', hwalk'⟩ := Options.flag_eq_ok hflag
  exact .ofEq (hpaths'.trans hpaths) (hwalk'.trans hwalk) hfirst

theorem reads_consume {tokens : List Token} (h : p.consume tokens = .ok p') :
    p.options.Reads p'.options tokens := by
  fun_induction consume p tokens with
  | case1 p =>
    obtain rfl := Except.ok.inj h
    exact .ofEq rfl rfl rfl
  | case2 p t rest ih => exact (reads_takeArgument p t).trans (ih h) rfl
  | case3 p rest ih =>
    have hseparator : p.options.Reads p.takeSeparator.options [.separator] := by
      rw [options_takeSeparator]
      exact .ofEq rfl rfl rfl
    exact hseparator.trans (ih h) rfl
  | case4 p t rest ih =>
    have hunknown : p.options.Reads (p.endRun.reject t).options [.unknown t] := by
      rw [reject, endRun_options]
      exact .ofEq rfl rfl rfl
    exact hunknown.trans (ih h) rfl
  | case6 p s byLetter attached rest c hc _ value hattached p'' hact ih =>
    -- the value is attached to the switch
    obtain ⟨rfl, rfl⟩ | ⟨hs, hlast⟩ := Cluster.ofOption_eq_ok hc
    · obtain rfl : attached = some value := hattached
      have hset : p.options.Reads p''.options [.option .walk byLetter (some value)] :=
        reads_set hact (fun _ => rfl) (absurd rfl)
      exact hset.trans (ih h) rfl
    · have hset : p.options.Reads p''.options [.option s byLetter attached] :=
        reads_set hact (absurd · hlast)
          fun _ => Token.directories_option_of_ne hs byLetter attached []
      exact hset.trans (ih h) (Token.directories_append_of_ne hs byLetter attached rfl)
  | case8 p s byLetter attached c hc _ hattached value rest p'' hact ih =>
    -- the value is the next token
    obtain ⟨rfl, rfl⟩ | ⟨hs, hlast⟩ := Cluster.ofOption_eq_ok hc
    · obtain rfl : attached = none := hattached
      have hset : p.options.Reads p''.options [.option .walk byLetter none, .argument value] :=
        reads_set hact (fun _ => rfl) (absurd rfl)
      exact hset.trans (ih h) rfl
    · have hset : p.options.Reads p''.options [.option s byLetter attached, .argument value] :=
        reads_set hact (absurd · hlast)
          fun _ => Token.directories_option_of_ne hs byLetter attached [.argument value]
      exact hset.trans (ih h) (Token.directories_append_of_ne hs byLetter attached rfl)
  | case11 p s byLetter attached rest c hc hvalue p'' hact ih =>
    obtain ⟨-, rfl⟩ | ⟨hs, -⟩ := Cluster.ofOption_eq_ok hc
    · exact absurd rfl hvalue
    · have hflag : p.options.Reads p''.options [.option s byLetter attached] :=
        reads_flag hact (Token.directories_option_of_ne hs byLetter attached [])
      exact hflag.trans (ih h) (Token.directories_append_of_ne hs byLetter attached rfl)
  | case5 | case7 | case9 | case10 | case12 => cases h

end Progress

namespace Options

/-- An accepted command line has been read to its end. -/
theorem exists_consume_of_parse {arguments : List Text} {o : Options}
    (h : parse arguments = .ok o) : ∃ tokens run, Token.ofArguments arguments = .ok tokens ∧
      Progress.consume {} tokens = .ok ⟨o, run, []⟩ := by
  rw [parse] at h
  cases htokens : Token.ofArguments arguments with
  | error e =>
    rw [htokens] at h
    cases h
  | ok tokens =>
    rw [htokens] at h
    simp only at h
    cases hconsume : Progress.consume {} tokens with
    | error stop =>
      rw [hconsume] at h
      cases h
    | ok p =>
      obtain ⟨o', run, unrecognized⟩ := p
      rw [hconsume] at h
      simp only at h
      split at h
      · next hempty =>
        obtain rfl := Except.ok.inj h
        obtain rfl := List.isEmpty_iff.mp hempty
        exact ⟨tokens, run, rfl, hconsume⟩
      · cases h

/-- The paths of an accepted command line are arguments, in the order in which they are given, and
the directory to walk is the last one that is passed. -/
theorem reads_parse {arguments : List Text} {o : Options} (h : parse arguments = .ok o) :
    o.paths.Sublist arguments ∧ ∃ tokens, Token.ofArguments arguments = .ok tokens ∧
      o.walk = (Token.directories tokens).getLast?.map Given.ofText := by
  obtain ⟨tokens, run, htokens, hconsume⟩ := exists_consume_of_parse h
  obtain ⟨⟨taken, hpaths, htaken⟩, hwalk⟩ := Progress.reads_consume hconsume
  refine ⟨?_, tokens, htokens, ?_⟩
  · obtain rfl : o.paths = taken := hpaths
    exact htaken.trans (Token.sublist_of_ofArguments htokens)
  · rwa [Option.or_none] at hwalk

end Options

end HiddenText
