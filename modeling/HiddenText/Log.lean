import HiddenText.Files.Error

/-!
# The log

What a run tells about its progress: an event has a level, the part of the program that reports it,
and a message.  `Logged` is a result together with the events on the way to it.  `inTurn` puts
results one after the other and stops at the first that is a failure, whose events are still kept.
-/

namespace HiddenText

inductive Level
  | debug
  | info
  deriving DecidableEq

inductive Event
  | unreadableFile (path : Text) (error : SystemError)
  | notUtf8 (path : Text) (fault : Utf8.Fault)
  | unreadableDirectory (path : Text) (error : SystemError)
  | tracked (paths : Nat)
  | walked (root : Text) (paths : Nat)
  | scanned (files : Nat) (findings : Int) (filesWithFindings : Nat)
  | wroteReport (path : Text)
  deriving DecidableEq

namespace Event

def level : Event → Level
  | .unreadableFile _ _ | .notUtf8 _ _ | .unreadableDirectory _ _ => .debug
  | .tracked _ | .walked _ _ | .scanned _ _ _ | .wroteReport _ => .info

def source : Event → Text
  | .unreadableFile _ _ | .notUtf8 _ _ => lit "bidiscan.scanner"
  | .unreadableDirectory _ _ | .tracked _ | .walked _ _ => lit "bidiscan.listing"
  | .scanned _ _ _ => lit "bidiscan.scan"
  | .wroteReport _ => lit "bidiscan.report"

def message : Event → Text
  | .unreadableFile path e => lit "skipped " ++ path ++ lit ": " ++ e.message
  | .notUtf8 path f => lit "skipped " ++ path ++ lit ": not UTF-8 text (" ++ f.reason ++ lit ")"
  | .unreadableDirectory path e =>
    lit "skipped unreadable directory " ++ path ++ lit ": " ++ e.message
  | .tracked n => lit "git ls-files listed " ++ Numeral.ofNat n ++ lit " path(s)"
  | .walked root n => lit "walk of " ++ root ++ lit " listed " ++ Numeral.ofNat n ++ lit " path(s)"
  | .scanned files findings found =>
    lit "scanned " ++ Numeral.ofNat files ++ lit " file(s): " ++ Numeral.ofInt findings
      ++ lit " finding(s) in " ++ Numeral.ofNat found ++ lit " file(s)"
  | .wroteReport path => lit "wrote JSON report to " ++ path

/-- The event as one log record. -/
def line (e : Event) : Text :=
  (match e.level with
    | .debug => lit "DEBUG "
    | .info => lit "INFO ") ++ e.source ++ lit ": " ++ e.message

/-- Progress is shown from the first degree of verbosity on, details from the second. -/
def shownAt (verbosity : Nat) (e : Event) : Bool :=
  match e.level with
  | .info => 1 ≤ verbosity
  | .debug => 2 ≤ verbosity

end Event

/-- A result with the events on the way to it. -/
structure Logged (α : Type) where
  log : List Event
  result : α

/-- The results one after the other, up to the first failure. -/
def inTurn {ε α : Type} : List (Logged (Except ε α)) → Logged (Except ε (List α))
  | [] => ⟨[], .ok []⟩
  | ⟨log, .error e⟩ :: _ => ⟨log, .error e⟩
  | ⟨log, .ok a⟩ :: rest =>
    let ⟨log', result⟩ := inTurn rest
    ⟨log ++ log', result.map (a :: ·)⟩

theorem inTurn_cons_error {ε α : Type} {x : Logged (Except ε α)} {e : ε} (h : x.result = .error e)
    (rest : List (Logged (Except ε α))) : (inTurn (x :: rest)).result = .error e := by
  obtain ⟨log, result⟩ := x
  obtain rfl : result = .error e := h
  rfl

theorem inTurn_cons_ok {ε α : Type} {x : Logged (Except ε α)} {a : α} (h : x.result = .ok a)
    (rest : List (Logged (Except ε α))) :
    (inTurn (x :: rest)).result = (inTurn rest).result.map (a :: ·) := by
  obtain ⟨log, result⟩ := x
  obtain rfl : result = .ok a := h
  rfl

/-- All of them succeed. -/
theorem inTurn_result_eq_ok_iff {ε α : Type} {l : List (Logged (Except ε α))} {as : List α} :
    (inTurn l).result = .ok as ↔ l.map Logged.result = as.map .ok := by
  induction l generalizing as with
  | nil => cases as <;> simp [inTurn]
  | cons x l ih =>
    cases hx : x.result with
    | error e =>
      rw [inTurn_cons_error hx]
      cases as <;> simp [hx]
    | ok a =>
      rw [inTurn_cons_ok hx]
      cases hl : (inTurn l).result with
      | error e =>
        have hne : ∀ bs : List α, l.map Logged.result ≠ bs.map .ok := by
          intro bs hbs
          rw [ih.mpr hbs] at hl
          cases hl
        cases as with
        | nil => simp [Except.map]
        | cons b as =>
          have h := hne as
          simpa [Except.map, hx] using fun _ => h
      | ok bs =>
        have hbs := ih.mp hl
        cases as with
        | nil => simp [Except.map]
        | cons b as =>
          simp [Except.map, hx, hbs, List.map_inj_right fun _ _ => Except.ok.inj]

/-- One of them fails, and none before it. -/
theorem inTurn_result_eq_error_iff {ε α : Type} {l : List (Logged (Except ε α))} {e : ε} :
    (inTurn l).result = .error e ↔ ∃ before x after, l = before ++ x :: after ∧
      (∀ y ∈ before, y.result.isOk) ∧ x.result = .error e := by
  induction l with
  | nil => simp [inTurn]
  | cons x l ih =>
    cases hx : x.result with
    | error e' =>
      rw [inTurn_cons_error hx]
      constructor
      · intro h
        obtain rfl := Except.error.inj h
        refine ⟨[], x, l, rfl, ?_, hx⟩
        intro y hy
        cases hy
      · rintro ⟨before, y, after, hl, hok, hy⟩
        cases before with
        | nil =>
          obtain ⟨rfl, -⟩ := List.cons.inj hl
          rw [hx] at hy
          rw [Except.error.inj hy]
        | cons z before =>
          obtain ⟨rfl, -⟩ := List.cons.inj hl
          have hz := hok x List.mem_cons_self
          rw [hx] at hz
          cases hz
    | ok a =>
      have hmap : (inTurn (x :: l)).result = .error e ↔ (inTurn l).result = .error e := by
        rw [inTurn_cons_ok hx]
        cases (inTurn l).result <;> simp [Except.map]
      rw [hmap, ih]
      constructor
      · rintro ⟨before, y, after, rfl, hok, hy⟩
        refine ⟨x :: before, y, after, rfl, ?_, hy⟩
        intro z hz
        rcases List.mem_cons.mp hz with rfl | hz
        · rw [hx]
          rfl
        · exact hok z hz
      · rintro ⟨before, y, after, hl, hok, hy⟩
        cases before with
        | nil =>
          obtain ⟨rfl, -⟩ := List.cons.inj hl
          rw [hx] at hy
          cases hy
        | cons z before =>
          obtain ⟨rfl, rfl⟩ := List.cons.inj hl
          exact ⟨before, y, after, rfl, fun z hz => hok z (List.mem_cons_of_mem _ hz), hy⟩

end HiddenText
