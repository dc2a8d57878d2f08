import HiddenText.Proofs.Text.Padded
import HiddenText.Settings

/-!
# The number of workers that is set

What the environment says about workers comes down to three cases (`Environment.workers_cases`):
nothing, which means one worker, a positive integer, which is the number of workers, or anything
else, which is refused with the text that was found.  The blanks at the ends of the value are no part
of it.

Main statement: `Environment.workers_eq_iff`.
-/

namespace HiddenText

theorem Numeral.not_denotes_nil (n : Int) : ¬Denotes [] n := by
  intro h
  cases h with
  | unsigned h _ =>
    obtain ⟨c, rest, hnil, -⟩ := h.exists_cons
    cases hnil

namespace Environment

open Settings

variable {env : Environment} {n : Int}

/-- The value of a variable; empty if it is not set. -/
def value (env : Environment) (key : Text) : Text := (env.lookup key).getD []

theorem stripped_eq_nil_iff {key : Text} :
    env.stripped key = [] ↔ ∀ c ∈ env.value key, c.isBlank :=
  Text.trim_eq_nil_iff

theorem isTrimmed_value_iff {key body : Text} :
    (env.value key).IsTrimmed CodePoint.isBlank body ↔ body = env.stripped key :=
  Text.isTrimmed_iff

/-- A stripped value has no white space left that could stand around a numeral. -/
theorem toInt?_stripped_eq_some_iff {key : Text} :
    Numeral.toInt? (env.stripped key) = some n ↔ Numeral.Denotes (env.stripped key) n := by
  have htrim : (env.stripped key).trim Numeral.isOuterSpace = env.stripped key :=
    Text.trim_trim_of_imp (fun _ => Numeral.isBlank_of_isOuterSpace) _
  rw [Numeral.toInt?_eq_some_iff, htrim]

/-- Nothing is set, or a positive integer, or something else. -/
theorem workers_cases (env : Environment) :
    (env.stripped workersVariable = [] ∧ env.workers = .ok 1) ∨
    (∃ n, Numeral.Denotes (env.stripped workersVariable) n ∧ 1 ≤ n ∧ env.workers = .ok n) ∨
    (env.stripped workersVariable ≠ [] ∧
      (∀ n, Numeral.Denotes (env.stripped workersVariable) n → n < 1) ∧
      env.workers = .error ⟨env.stripped workersVariable⟩) := by
  rw [workers]
  by_cases hnil : env.stripped workersVariable = []
  · exact .inl ⟨hnil, if_pos (List.isEmpty_iff.mpr hnil)⟩
  · have hempty : ¬(env.stripped workersVariable).isEmpty = true := mt List.isEmpty_iff.mp hnil
    simp only [if_neg hempty]
    cases hread : Numeral.toInt? (env.stripped workersVariable) with
    | none =>
      refine .inr (.inr ⟨hnil, ?_, rfl⟩)
      intro n hn
      rw [← toInt?_stripped_eq_some_iff, hread] at hn
      cases hn
    | some n =>
      have hn := toInt?_stripped_eq_some_iff.mp hread
      by_cases hpos : n < 1
      · refine .inr (.inr ⟨hnil, ?_, if_pos hpos⟩)
        intro m hm
        rw [← toInt?_stripped_eq_some_iff, hread] at hm
        rwa [← Option.some.inj hm]
      · exact .inr (.inl ⟨n, hn, by omega, if_neg hpos⟩)

/-- **The number of workers is what is set, or else refused.**  Let `body` be the value of the
variable without the blanks at its ends; there is one such text.  There is one worker if the value
is blank altogether, and there are `n` workers if `body` is the numeral of an integer `n` that is at
least 1; in no other case is there a number of workers.  In all other cases, and only then, the
value is refused, and `body` is the text that the failure tells. -/
theorem workers_eq_iff (env : Environment) :
    ∃ body, (∀ b, (env.value workersVariable).IsTrimmed CodePoint.isBlank b ↔ b = body) ∧
      (∀ n, env.workers = .ok n ↔
        (∀ c ∈ env.value workersVariable, c.isBlank) ∧ n = 1 ∨ Numeral.Denotes body n ∧ 1 ≤ n) ∧
      ∀ e, env.workers = .error e ↔
        e = ⟨body⟩ ∧ ¬(∀ c ∈ env.value workersVariable, c.isBlank) ∧
          ∀ n, Numeral.Denotes body n → n < 1 := by
  refine ⟨env.stripped workersVariable, fun b => isTrimmed_value_iff, ?_⟩
  rw [← stripped_eq_nil_iff]
  obtain ⟨hnil, hworkers⟩ | ⟨m, hm, hpos, hworkers⟩ | ⟨hnil, hall, hworkers⟩ := workers_cases env
  · rw [hworkers, hnil]
    constructor
    · intro n
      simp [Numeral.not_denotes_nil, eq_comm]
    · intro e
      simp
  · have hnil : env.stripped workersVariable ≠ [] := by
      intro h
      rw [h] at hm
      exact Numeral.not_denotes_nil m hm
    rw [hworkers]
    constructor
    · intro n
      constructor
      · intro h
        obtain rfl := Except.ok.inj h
        exact .inr ⟨hm, hpos⟩
      · rintro (⟨h, -⟩ | ⟨hn, -⟩)
        · exact absurd h hnil
        · rw [hm.unique hn]
    · intro e
      constructor
      · intro h
        cases h
      · rintro ⟨-, -, hall⟩
        have := hall m hm
        omega
  · rw [hworkers]
    constructor
    · intro n
      constructor
      · intro h
        cases h
      · rintro (⟨h, -⟩ | ⟨hn, hpos⟩)
        · exact absurd h hnil
        · have := hall n hn
          omega
    · intro e
      constructor
      · intro h
        exact ⟨(Except.error.inj h).symm, hnil, hall⟩
      · rintro ⟨rfl, -, -⟩
        rfl

/-- Digits of two scripts, a leading zero and an underscore. -/
example : workers [(workersVariable, lit "\u2003+0_1\u0663\n")] = .ok 13 := by decide

/-- A zero width space is no blank, and no digit. -/
example : workers [(workersVariable, lit " \u200B4")] = .error ⟨lit "\u200B4"⟩ := by decide

end Environment

end HiddenText
