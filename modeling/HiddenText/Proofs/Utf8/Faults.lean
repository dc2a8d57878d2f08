import HiddenText.Proofs.Utf8.Boundaries

/-!
# The first fault

Bytes that are not the encoding of a text are one up to some place, and go wrong there.  `Breaks`
says how bytes can go wrong at their beginning, in terms of the encodings alone:

* `invalidStart`: no character has the first byte as its first byte,
* `invalidContinuation`: a character is begun but not finished, and no character goes on with the
  next byte,
* `truncated`: a character is begun but not finished, and there are no more bytes.

There is one such place and one such fault (`FirstFault.unique`), and it is the one for which
`decode` refuses the bytes (`decode_eq_error_iff`).  `Cutter.Cuts` is the invariant: what the cutter
has been given is a text, or a text and the beginning of a character, or has its first fault.
-/

namespace HiddenText.Utf8

variable {bytes rest run : Bytes} {fault fault' : Fault} {t : Text} {c : CodePoint} {b : UInt8}

/-- The bytes are the beginning of a character, or all of it. -/
def Begins (run : Bytes) : Prop := ∃ c : CodePoint, c.isSurrogate = false ∧ run <+: encodeOne c

/-- Some bytes of a character from its first one on, but not all. -/
def Unfinished (run : Bytes) : Prop :=
  run ≠ [] ∧ ∃ c : CodePoint, c.isSurrogate = false ∧ run <+: encodeOne c ∧ run ≠ encodeOne c

/-- How bytes go wrong where a character should start. -/
inductive Breaks : Bytes → Fault → Prop
  | start {b : UInt8} {rest : Bytes} (h : ¬Begins [b]) : Breaks (b :: rest) .invalidStart
  | continuation {run : Bytes} {b : UInt8} {rest : Bytes} (h : Unfinished run)
      (hb : ¬Begins (run ++ [b])) : Breaks (run ++ b :: rest) .invalidContinuation
  | truncated {run : Bytes} (h : Unfinished run) : Breaks run .truncated

/-- The bytes are those of a text up to some place, where they go wrong in the given way. -/
def FirstFault (bytes : Bytes) (fault : Fault) : Prop :=
  ∃ before t rest, bytes = before ++ rest ∧ Encodes before t ∧ Breaks rest fault

/-! ## There is one first fault -/

theorem Begins.of_prefix (h : Begins rest) (hrun : run <+: rest) : Begins run := by
  obtain ⟨c, hs, hc⟩ := h
  exact ⟨c, hs, hrun.trans hc⟩

theorem Unfinished.encodeOne_append_ne (h : Unfinished run) (hs : c.isSurrogate = false) :
    run ≠ encodeOne c ++ rest := by
  obtain ⟨-, d, hd, ⟨more, hmore⟩, hne⟩ := h
  rintro rfl
  rw [List.append_assoc] at hmore
  have hcd := encodeOne_append_inj (s := []) hs hd (hmore.trans (List.append_nil _).symm)
  subst hcd
  have hnil := List.append_right_eq_self.mp hmore
  rw [(List.append_eq_nil_iff.mp hnil).1, List.append_nil] at hne
  exact hne rfl

theorem Breaks.encodeOne_append_ne (h : Breaks bytes fault) (hs : c.isSurrogate = false) :
    bytes ≠ encodeOne c ++ rest := by
  intro heq
  cases h with
  | @start b more h =>
    obtain ⟨b', trail, he, -⟩ := encodeOne_eq_cons hs
    rw [he, List.cons_append] at heq
    obtain ⟨rfl, -⟩ := List.cons.inj heq
    exact h ⟨c, hs, trail, he.symm⟩
  | @continuation run b more h hb =>
    -- the character ends before the bad byte, or reaches over it
    rcases List.append_eq_append_iff.mp heq with ⟨trail, he, htrail⟩ | ⟨more', hrun, -⟩
    · cases trail with
      | nil =>
        have hrun : run = encodeOne c ++ [] := by rw [he, List.append_nil, List.append_nil]
        exact h.encodeOne_append_ne hs hrun
      | cons b' trail =>
        obtain ⟨rfl, -⟩ := List.cons.inj htrail
        exact hb ⟨c, hs, trail, by rw [he, List.append_assoc]; rfl⟩
    · exact h.encodeOne_append_ne hs hrun
  | truncated h => exact h.encodeOne_append_ne hs heq

/-- No character is begun by a byte that starts none. -/
theorem Unfinished.ne_of_not_begins (h : Unfinished run) (hb : ¬Begins [b]) (more : Bytes) :
    run ++ more ≠ b :: rest := by
  obtain ⟨hne, c, hs, hc, -⟩ := h
  obtain ⟨b', run, rfl⟩ := List.exists_cons_of_ne_nil hne
  intro heq
  obtain ⟨rfl, -⟩ := List.cons.inj heq
  exact hb (Begins.of_prefix ⟨c, hs, hc⟩ ⟨run, rfl⟩)

/-- No character goes on with a byte that does not let it. -/
theorem Unfinished.not_prefix (h : Unfinished run) {begun : Bytes} (hb : ¬Begins (begun ++ [b])) :
    ¬begun ++ [b] <+: run := by
  obtain ⟨-, c, hs, hc, -⟩ := h
  intro hprefix
  exact hb (Begins.of_prefix ⟨c, hs, hc⟩ hprefix)

theorem Breaks.ne_nil (h : Breaks bytes fault) : bytes ≠ [] := by
  cases h with
  | start => exact List.cons_ne_nil _ _
  | continuation => simp
  | truncated h => exact h.1

/-- Bytes go wrong in one way. -/
theorem Breaks.unique (h : Breaks bytes fault) {bytes' : Bytes} (h' : Breaks bytes' fault')
    (heq : bytes = bytes') : fault = fault' := by
  cases h with
  | @start b rest hb =>
    cases h' with
    | start => rfl
    | @continuation run b' rest' h _ => exact absurd heq.symm (h.ne_of_not_begins hb _)
    | truncated h =>
      rw [← List.append_nil bytes'] at heq
      exact absurd heq.symm (h.ne_of_not_begins hb [])
  | @continuation run b rest h hb =>
    cases h' with
    | start hb' => exact absurd heq (h.ne_of_not_begins hb' _)
    | continuation => rfl
    | truncated h' => exact absurd ⟨rest, by rw [← heq, List.append_assoc]; rfl⟩ (h'.not_prefix hb)
  | truncated h =>
    cases h' with
    | start hb =>
      rw [← List.append_nil bytes] at heq
      exact absurd heq (h.ne_of_not_begins hb [])
    | @continuation run b rest h' hb =>
      exact absurd ⟨rest, by rw [heq, List.append_assoc]; rfl⟩ (h.not_prefix hb)
    | truncated => rfl

/-- Two texts with something behind each that starts with no character are the same. -/
theorem eq_of_flatMap_append {rest' : Bytes} {t' : Text} (hs : ∀ c ∈ t, c.isSurrogate = false)
    (hs' : ∀ c ∈ t', c.isSurrogate = false)
    (hrest : ∀ c s, c.isSurrogate = false → rest ≠ encodeOne c ++ s)
    (hrest' : ∀ c s, c.isSurrogate = false → rest' ≠ encodeOne c ++ s)
    (heq : t.flatMap encodeOne ++ rest = t'.flatMap encodeOne ++ rest') : rest = rest' := by
  induction t generalizing t' with
  | nil =>
    cases t' with
    | nil => exact heq
    | cons d t' =>
      rw [List.flatMap_cons, List.append_assoc] at heq
      exact absurd heq (hrest d _ (hs' d List.mem_cons_self))
  | cons c t ih =>
    rw [List.flatMap_cons, List.append_assoc] at heq
    cases t' with
    | nil => exact absurd heq.symm (hrest' c _ (hs c List.mem_cons_self))
    | cons d t' =>
      rw [List.flatMap_cons, List.append_assoc] at heq
      obtain ⟨hc, ht⟩ := List.forall_mem_cons.mp hs
      obtain ⟨hd, ht'⟩ := List.forall_mem_cons.mp hs'
      rw [encodeOne_append_inj hc hd heq] at heq
      exact ih ht ht' (List.append_cancel_left heq)

theorem FirstFault.unique (h : FirstFault bytes fault) (h' : FirstFault bytes fault') :
    fault = fault' := by
  obtain ⟨before, t, rest, rfl, ⟨hs, rfl⟩, hbreaks⟩ := h
  obtain ⟨before', t', rest', heq, ⟨hs', rfl⟩, hbreaks'⟩ := h'
  exact hbreaks.unique hbreaks' (eq_of_flatMap_append hs hs'
    (fun _ _ hc => hbreaks.encodeOne_append_ne hc) (fun _ _ hc => hbreaks'.encodeOne_append_ne hc)
    heq)

theorem FirstFault.not_encodes (h : FirstFault bytes fault) : ¬Encodes bytes t := by
  obtain ⟨before, t', rest, rfl, ⟨hs', rfl⟩, hbreaks⟩ := h
  rintro ⟨hs, heq⟩
  have hnil : ∀ c s, c.isSurrogate = false → ([] : Bytes) ≠ encodeOne c ++ s := by
    intro c s hc hnil
    obtain ⟨b, trail, he, -⟩ := encodeOne_eq_cons hc
    rw [he] at hnil
    cases hnil
  rw [← List.append_nil (t.flatMap encodeOne)] at heq
  obtain rfl := eq_of_flatMap_append hs hs' hnil (fun _ _ hc => hbreaks.encodeOne_append_ne hc) heq
  exact hbreaks.ne_nil rfl

/-! ## Where the cutter stands -/

/-- A pending character that can go on, and does with exactly the bytes within its bounds. -/
structure Pending.Exact (p : Pending) : Prop extends p.Sound where
  low_le_high : p.low ≤ p.high
  read : p.seen.foldl Cutter.push {} = ⟨[], some p⟩

/-- What the cutter finds ill-formed is the beginning of no character. -/
theorem not_begins_of_illFormed {seen : Bytes}
    (h : .illFormed seen fault ∈ (run.foldl Cutter.push {}).pieces) : ¬Begins run := by
  rintro ⟨c, hs, more, hc⟩
  have hread : ((run ++ more).foldl Cutter.push {}).pieces = [.char c] := by
    rw [hc, foldl_push_encodeOne [] hs]
  obtain ⟨new, hnew⟩ := pieces_foldl_push more (run.foldl Cutter.push {})
  rw [List.foldl_append, hnew] at hread
  have hmem := List.mem_append_right new h
  rw [hread] at hmem
  cases List.mem_singleton.mp hmem

namespace Pending.Exact

variable {p : Pending}

theorem unfinished (hp : p.Exact) : Unfinished p.seen := by
  have hpos := hp.missing_pos
  have hlow := hp.low_le
  have hhigh := hp.le_high
  have hle := hp.low_le_high
  obtain ⟨m, hm⟩ : ∃ m, p.missing = m + 1 := Nat.exists_eq_add_one.mpr hpos
  have hpow : 0 < 64 ^ m := Nat.pow_pos (by decide)
  refine ⟨?_, ?_⟩
  · intro hnil
    have hread := hp.read
    rw [hnil] at hread
    cases hread
  -- the least byte within the bounds goes on to a character
  · have hdiv : (p.low - 0x80) * 64 ^ m / 64 ^ m = p.low - 0x80 := Nat.mul_div_cancel _ hpow
    have hlt : (p.low - 0x80) * 64 ^ m < 64 ^ (m + 1) := by
      rw [Nat.pow_succ, Nat.mul_comm (64 ^ m)]
      exact Nat.mul_lt_mul_of_pos_right (by omega) hpow
    obtain ⟨c, -, hs, hc⟩ := hp.spells ((p.low - 0x80) * 64 ^ m) (by rw [hm]; exact hlt)
      (by rw [hm, Nat.add_sub_cancel, hdiv]; omega) (by rw [hm, Nat.add_sub_cancel, hdiv]; omega)
    refine ⟨c, hs, ⟨_, hc.symm⟩, ?_⟩
    rw [hc, hm, trailing]
    simp

theorem not_begins (hp : p.Exact) (hb : ¬(p.low ≤ b.toNat ∧ b.toNat ≤ p.high)) :
    ¬Begins (p.seen ++ [b]) := by
  obtain ⟨new, hnew⟩ := pieces_start ⟨[.illFormed p.seen .invalidContinuation], none⟩ b
  have hpieces : ((p.seen ++ [b]).foldl Cutter.push {}).pieces =
      new ++ [.illFormed p.seen .invalidContinuation] := by
    rw [List.foldl_append, hp.read, List.foldl_cons, List.foldl_nil, Cutter.push_beyond [] hb, hnew]
  apply not_begins_of_illFormed
  rw [hpieces]
  exact List.mem_append_right new List.mem_cons_self

theorem next (hp : p.Exact) {q : Pending} (hq : q.Sound) (hle : q.low ≤ q.high)
    (hseen : q.seen = p.seen ++ [b]) (hpush : ∀ ps, Cutter.push ⟨ps, some p⟩ b = ⟨ps, some q⟩) :
    q.Exact where
  toSound := hq
  low_le_high := hle
  read := by rw [hseen, List.foldl_append, hp.read, List.foldl_cons, List.foldl_nil, hpush]

end Pending.Exact

theorem Encodes.append_char {bytes : Bytes} (h : Encodes bytes t) (hs : c.isSurrogate = false)
    {run : Bytes} (he : encodeOne c = run) : Encodes (bytes ++ run) (t ++ [c]) := by
  refine ⟨?_, ?_⟩
  · intro d hd
    rcases List.mem_append.mp hd with hd | hd
    · exact h.1 d hd
    · rw [List.mem_singleton.mp hd, hs]
  · rw [List.flatMap_append, h.2, List.flatMap_singleton, he]

/-- The cutter has been given these bytes: a text, a text and the beginning of a character, or
bytes whose first fault is known, whatever comes after them. -/
inductive Cutter.Cuts : Cutter → Bytes → Prop
  | between {t : Text} {bytes : Bytes} (h : Encodes bytes t) :
      Cuts ⟨(t.map Piece.char).reverse, none⟩ bytes
  | within {t : Text} {bytes : Bytes} {p : Pending} (h : Encodes bytes t) (hp : p.Exact) :
      Cuts ⟨(t.map Piece.char).reverse, some p⟩ (bytes ++ p.seen)
  | broken {t : Text} {k : Cutter} {bytes run : Bytes} {fault : Fault} {more : List Piece}
      (hpieces : k.pieces = more ++ .illFormed run fault :: (t.map Piece.char).reverse)
      (h : ∀ rest, FirstFault (bytes ++ rest) fault) : Cuts k bytes

namespace Cutter

variable {k : Cutter}

theorem cuts_start (h : Encodes bytes t) (b : UInt8) :
    (start ⟨(t.map Piece.char).reverse, none⟩ b).Cuts (bytes ++ [b]) := by
  rcases start_cases b with ⟨c, hs, he, hstart⟩ | ⟨p, hp, hle, hseen, hstart⟩ | hstart
  · have hpieces : Piece.char c :: (t.map Piece.char).reverse =
        ((t ++ [c]).map Piece.char).reverse := by simp
    rw [hstart, emit]
    simp only [hpieces]
    exact .between (h.append_char hs he)
  · rw [hstart, ← hseen]
    refine .within h ⟨hp, hle, ?_⟩
    rw [hseen, List.foldl_cons, List.foldl_nil, push]
    exact hstart {}
  · have hb : ¬Begins [b] := by
      have hpieces : ([b].foldl Cutter.push {}).pieces = [.illFormed [b] .invalidStart] := by
        rw [List.foldl_cons, List.foldl_nil, push]
        simp only [hstart, emit]
      apply not_begins_of_illFormed
      rw [hpieces]
      exact List.mem_cons_self
    have hpieces : (emit ⟨(t.map Piece.char).reverse, none⟩ (.illFormed [b] .invalidStart)).pieces =
        [] ++ .illFormed [b] .invalidStart :: (t.map Piece.char).reverse := rfl
    rw [hstart]
    exact .broken hpieces fun rest => ⟨bytes, t, b :: rest, by simp, h, .start hb⟩

/-- A step keeps what is known of the bytes. -/
theorem Cuts.push (h : k.Cuts bytes) (b : UInt8) : (k.push b).Cuts (bytes ++ [b]) := by
  cases h with
  | between h => exact cuts_start h b
  | @within t bytes p h hp =>
    by_cases hb : p.low ≤ b.toNat ∧ b.toNat ≤ p.high
    · rcases push_within hp.toSound hb.1 hb.2 with ⟨c, hs, he, hpush⟩ | ⟨q, hq, hle, hseen, hpush⟩
      · have hpieces : Piece.char c :: (t.map Piece.char).reverse =
            ((t ++ [c]).map Piece.char).reverse := by simp
        rw [hpush, hpieces, List.append_assoc]
        exact .between (h.append_char hs he)
      · rw [hpush, List.append_assoc, ← hseen]
        exact .within h (hp.next hq hle hseen hpush)
    · obtain ⟨new, hnew⟩ := pieces_start
        ⟨.illFormed p.seen .invalidContinuation :: (t.map Piece.char).reverse, none⟩ b
      rw [push_beyond _ hb]
      refine .broken hnew fun rest => ?_
      exact ⟨bytes, t, p.seen ++ b :: rest, by simp, h,
        .continuation hp.unfinished (hp.not_begins hb)⟩
  | @broken t k bytes run fault more hpieces h =>
    obtain ⟨new, hnew⟩ := pieces_push k b
    have hpieces' : (k.push b).pieces =
        (new ++ more) ++ .illFormed run fault :: (t.map Piece.char).reverse := by
      rw [hnew, hpieces, List.append_assoc]
    refine .broken hpieces' fun rest => ?_
    rw [List.append_assoc]
    exact h _

theorem Cuts.foldl (h : k.Cuts bytes) (more : Bytes) :
    (more.foldl Cutter.push k).Cuts (bytes ++ more) := by
  induction more generalizing k bytes with
  | nil => rwa [List.append_nil]
  | cons b more ih => rw [List.append_cons]; exact ih (h.push b)

theorem cuts_foldl_push (bytes : Bytes) : (bytes.foldl Cutter.push {}).Cuts bytes := by
  have hempty : Cuts {} [] := .between (t := []) ⟨by simp, rfl⟩
  exact hempty.foldl bytes

/-- At the end there is a text, or the first fault. -/
theorem Cuts.finish (h : k.Cuts bytes) : (∃ t, Encodes bytes t) ∨
    ∃ fault, FirstFault bytes fault ∧ k.finish.findSome? Piece.fault? = some fault := by
  have hfound (t : Text) (run : Bytes) (fault : Fault) (more : List Piece) :
      (t.map Piece.char ++ .illFormed run fault :: more).findSome? Piece.fault? = some fault := by
    rw [List.findSome?_append, findSome?_fault?_char]
    rfl
  cases h with
  | between h => exact .inl ⟨_, h⟩
  | @within t bytes p h hp =>
    refine .inr ⟨.truncated, ⟨bytes, t, p.seen, rfl, h, .truncated hp.unfinished⟩, ?_⟩
    simpa [Cutter.finish] using hfound t p.seen .truncated []
  | @broken t k bytes run fault more hpieces h =>
    refine .inr ⟨fault, List.append_nil bytes ▸ h [], ?_⟩
    rw [Cutter.finish]
    cases k.pending with
    | none => simpa [hpieces] using hfound t run fault more.reverse
    | some p =>
      simpa [hpieces] using hfound t run fault (more.reverse ++ [.illFormed p.seen .truncated])

end Cutter

/-- **Bytes are refused for their first fault.** -/
theorem decode_eq_error_iff : decode bytes = .error fault ↔ FirstFault bytes fault := by
  have hfirst : ∀ fault, decode bytes = .error fault → FirstFault bytes fault := by
    intro fault h
    rcases (Cutter.cuts_foldl_push bytes).finish with ⟨t, ht⟩ | ⟨fault', hfault, hfound⟩
    · rw [decode_of_encodes ht] at h
      cases h
    · simp only [decode, pieces, hfound] at h
      rwa [← Except.error.inj h]
  constructor
  · exact hfirst fault
  · intro h
    cases hdecode : decode bytes with
    | ok t => exact absurd (encodes_of_decode hdecode) h.not_encodes
    | error fault' => rw [h.unique (hfirst fault' hdecode)]

end HiddenText.Utf8
