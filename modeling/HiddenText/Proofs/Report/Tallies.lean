import HiddenText.Report.Basic
import Mathlib.Algebra.Ring.Nat
import Mathlib.Data.List.Nodup

/-!
# Findings counted by label

`Report.tally` counts one more finding: the tally of its label goes up by one in its place, or a new
one comes last (`tally_cases`).  So the labels stay distinct, and no finding is lost or counted twice
when a list is grouped (`sumCount_counts`).
-/

namespace HiddenText.Report

variable {ts : List Tally} {f : Finding}

def labels (ts : List Tally) : List Text := ts.map Tally.codepoint

/-- How many findings some tallies stand for. -/
def sumCount (ts : List Tally) : Nat := (ts.map Tally.count).sum

theorem tally_of_new (h : f.codepoint ∉ labels ts) :
    tally ts f = ts ++ [⟨f.codepoint, f.name, 1⟩] := by
  rw [tally, if_neg]
  rw [List.any_eq_true]
  rintro ⟨t, ht, hlabel⟩
  exact h (List.mem_map.mpr ⟨t, ht, beq_iff_eq.mp hlabel⟩)

theorem tally_of_old {before after : List Tally} {t : Tally} (hlabel : t.codepoint = f.codepoint)
    (hbefore : f.codepoint ∉ labels before) (hafter : f.codepoint ∉ labels after) :
    tally (before ++ t :: after) f = before ++ { t with count := t.count + 1 } :: after := by
  have hkeep : ∀ us : List Tally, f.codepoint ∉ labels us →
      (us.map fun u => if u.codepoint == f.codepoint then { u with count := u.count + 1 } else u) =
        us := by
    intro us hus
    rw [List.map_congr_left (g := id), List.map_id]
    intro u hu
    rw [if_neg, id]
    intro heq
    exact hus (List.mem_map.mpr ⟨u, hu, beq_iff_eq.mp heq⟩)
  have hany : (before ++ t :: after).any (·.codepoint == f.codepoint) = true :=
    List.any_eq_true.mpr
      ⟨t, List.mem_append_right _ List.mem_cons_self, beq_iff_eq.mpr hlabel⟩
  rw [tally, if_pos hany, List.map_append, List.map_cons, hkeep before hbefore, hkeep after hafter,
    if_pos (beq_iff_eq.mpr hlabel)]

/-- What one more finding does to tallies with distinct labels. -/
theorem tally_cases (hnodup : (labels ts).Nodup) (f : Finding) :
    (∃ before t after, ts = before ++ t :: after ∧ t.codepoint = f.codepoint ∧
      tally ts f = before ++ { t with count := t.count + 1 } :: after) ∨
    (f.codepoint ∉ labels ts ∧ tally ts f = ts ++ [⟨f.codepoint, f.name, 1⟩]) := by
  by_cases hmem : f.codepoint ∈ labels ts
  · obtain ⟨t, ht, hlabel⟩ := List.mem_map.mp hmem
    obtain ⟨before, after, rfl⟩ := List.append_of_mem ht
    rw [labels, List.map_append, List.map_cons, List.nodup_middle, List.nodup_cons,
      List.mem_append, not_or, hlabel] at hnodup
    exact .inl ⟨before, t, after, rfl, hlabel, tally_of_old hlabel hnodup.1.1 hnodup.1.2⟩
  · exact .inr ⟨hmem, tally_of_new hmem⟩

theorem nodup_labels_tally (hnodup : (labels ts).Nodup) (f : Finding) :
    (labels (tally ts f)).Nodup := by
  obtain ⟨before, t, after, rfl, -, htally⟩ | ⟨hnew, htally⟩ := tally_cases hnodup f
  · have hsame : labels (tally (before ++ t :: after) f) = labels (before ++ t :: after) := by
      rw [htally, labels, labels, List.map_append, List.map_append, List.map_cons, List.map_cons]
    rwa [hsame]
  · rw [htally, labels, List.map_append, List.map_singleton, ← List.concat_eq_append]
    exact hnodup.concat hnew

theorem sumCount_append (ts us : List Tally) : sumCount (ts ++ us) = sumCount ts + sumCount us := by
  rw [sumCount, List.map_append, List.sum_append]
  rfl

theorem sumCount_cons (t : Tally) (ts : List Tally) :
    sumCount (t :: ts) = t.count + sumCount ts := by
  rw [sumCount, List.map_cons, List.sum_cons]
  rfl

theorem sumCount_tally (hnodup : (labels ts).Nodup) (f : Finding) :
    sumCount (tally ts f) = sumCount ts + 1 := by
  obtain ⟨before, t, after, rfl, -, htally⟩ | ⟨-, htally⟩ := tally_cases hnodup f
  · rw [htally, sumCount_append, sumCount_append, sumCount_cons, sumCount_cons]
    simp only
    omega
  · rw [htally, sumCount_append]
    rfl

theorem sumCount_foldl_tally (hnodup : (labels ts).Nodup) (findings : List Finding) :
    sumCount (findings.foldl tally ts) = sumCount ts + findings.length := by
  induction findings generalizing ts with
  | nil => rfl
  | cons f findings ih =>
    rw [List.foldl_cons, ih (nodup_labels_tally hnodup f), sumCount_tally hnodup, List.length_cons]
    omega

theorem sumCount_counts (findings : List Finding) :
    sumCount (counts findings) = findings.length := by
  have hempty : (labels []).Nodup := .nil
  rw [counts, sumCount_foldl_tally hempty]
  exact Nat.zero_add _

end HiddenText.Report
