import HiddenText.Proofs.Finding.Positions

/-!
# Scanning in parts

What is found in a text does not hang on what stands before it, only where it is found
(`Finding.collect_add`): so many offsets and lines further on as there are code points and line
feeds in front.  So a text may be scanned part by part, wherever it is cut, with nothing carried
over but these two numbers (`Finding.ofParts`).

Main statement: `Finding.all_append`.
-/

namespace HiddenText.Finding

variable {t : Text} {f : Finding}

/-- The finding, so many offsets and so many lines further on. -/
def shift (offsets lines : Nat) (f : Finding) : Finding :=
  { f with position := f.position + offsets, line := f.line + lines }

theorem shift_zero (f : Finding) : f.shift 0 0 = f := by
  rw [shift, Int.natCast_zero, Int.add_zero, Int.add_zero]

theorem shift_shift (m k m' k' : Nat) (f : Finding) :
    (f.shift m k).shift m' k' = f.shift (m + m') (k + k') := by
  simp only [shift, Int.natCast_add, Int.add_assoc]

theorem map_shift_zero (found : List Finding) : found.map (shift 0 0) = found :=
  (List.map_congr_left fun f _ => shift_zero f).trans (List.map_id _)

theorem map_shift_shift (m k m' k' : Nat) (found : List Finding) :
    (found.map (shift m k)).map (shift m' k') = found.map (shift (m + m') (k + k')) := by
  rw [List.map_map]
  exact List.map_congr_left fun f _ => shift_shift m k m' k' f

theorem here_add (c : CodePoint) (position line m k : Nat) :
    here c (position + m) (line + k) = (here c position line).map (shift m k) := by
  rw [here, here]
  cases c.name? <;> rfl

/-- A text that is gone through from further on has the same findings, further on. -/
theorem collect_add (t : Text) (m k : Nat) : ∀ position line : Nat,
    collect [] (position + m) (line + k) t = (collect [] position line t).map (shift m k) := by
  induction t with
  | nil => intro position line; rfl
  | cons c t ih =>
    intro position line
    have hline : lineAfter c (line + k) = lineAfter c line + k := by
      rw [lineAfter_eq_add, lineAfter_eq_add, Nat.add_right_comm]
    rw [collect_cons, collect_cons, List.map_append, here_add, ← ih, hline, Nat.add_right_comm]

theorem all_append_eq (s t : Text) :
    all (s ++ t) = all s ++ (all t).map (shift s.length (s.count CodePoint.newline)) := by
  rw [all, collect_append, collect_add, ← all, ← all]

theorem position_lt_of_mem_all (h : f ∈ all t) : 0 ≤ f.position ∧ f.position < t.length := by
  rw [all_eq_filterMap, List.mem_filterMap] at h
  obtain ⟨i, hi, hf⟩ := h
  obtain ⟨c, name, -, -, rfl⟩ := found?_eq_some_iff.mp hf
  exact ⟨Int.natCast_nonneg i, Int.ofNat_lt.mpr (List.mem_range.mp hi)⟩

/-- What stands behind a text adds no finding in it, and takes none away. -/
theorem filter_all_append (s t : Text) :
    (all (s ++ t)).filter (fun f => f.position < (s.length : Int)) = all s := by
  have hfront : (all s).filter (fun f => f.position < (s.length : Int)) = all s := by
    rw [List.filter_eq_self]
    intro f hf
    exact decide_eq_true (position_lt_of_mem_all hf).2
  have hback : ((all t).map (shift s.length (s.count CodePoint.newline))).filter
      (fun f => f.position < (s.length : Int)) = [] := by
    rw [List.filter_eq_nil_iff]
    intro f hf
    obtain ⟨g, hg, rfl⟩ := List.mem_map.mp hf
    have hposition := (position_lt_of_mem_all hg).1
    rw [decide_eq_true_eq, shift]
    simp only
    omega
  rw [all_append_eq, List.filter_append, hfront, hback, List.append_nil]

/-- The findings of parts that are scanned one by one, from an offset and a number of line feeds on.
Every part is scanned for itself. -/
def ofParts (position line : Nat) : List Text → List Finding
  | [] => []
  | part :: rest =>
    (all part).map (shift position line) ++
      ofParts (position + part.length) (line + part.count CodePoint.newline) rest

theorem ofParts_eq (parts : List Text) : ∀ position line : Nat,
    ofParts position line parts = (all parts.flatten).map (shift position line) := by
  induction parts with
  | nil => intro position line; rfl
  | cons part rest ih =>
    intro position line
    rw [ofParts, ih, List.flatten_cons, all_append_eq, List.map_append, map_shift_shift,
      Nat.add_comm position, Nat.add_comm line]

/-- **A text can be scanned in parts.**  The findings of two texts one behind the other are those of
the first and then those of the second, with the length of the first added to every offset, and the
number of its line feeds to every line.  So a text that is cut anywhere, however often, has the
findings of its parts; and whatever stands behind a text, the findings within it stay the same. -/
theorem all_append (s t : Text) :
    all (s ++ t) = all s ++ (all t).map (shift s.length (s.count CodePoint.newline)) ∧
      (∀ parts : List Text, ofParts 0 0 parts = all parts.flatten) ∧
      (all (s ++ t)).filter (fun f => f.position < (s.length : Int)) = all s := by
  refine ⟨all_append_eq s t, ?_, filter_all_append s t⟩
  intro parts
  rw [ofParts_eq, map_shift_zero]

/-- A cut between a carriage return and its line feed. -/
example : (ofParts 0 0 [lit "\u202E\r", lit "\n\u200B\u200B"]).map (fun f => (f.position, f.line)) =
    [(0, 1), (3, 2), (4, 2)] := by decide

end HiddenText.Finding
